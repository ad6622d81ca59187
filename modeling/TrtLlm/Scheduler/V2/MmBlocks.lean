import TrtLlm.Scheduler.V2.Budget

/-!
# Chunk boundaries and multimodal blocks

A block is a maximal run of multimodal positions of the prompt. `_align_chunk_to_mm_block` finds the block around the
proposed end of a chunk and moves the end behind it or before it, rounded to the unit size. The rounded end is not
looked at again: it may lie inside another block. That, and a proposed size beyond the limits, are the only ways in
which a chunk goes wrong (`alignChunkToMmBlock_sound_iff`).
-/

namespace TrtLlm.Scheduler

variable (mask : ℕ → Bool)

def maskCumsum (mask : ℕ → Bool) : ℕ → ℤ
  | 0 => (mask 0).toInt
  | i + 1 => maskCumsum mask i + (mask (i + 1)).toInt

theorem isMmPosition_maskCumsum (i : ℕ) : isMmPosition (maskCumsum mask) i = mask i := by
  cases i with
  | zero =>
    rw [isMmPosition, maskCumsum]
    cases mask 0 <;> rfl
  | succ i =>
    rw [isMmPosition, maskCumsum, add_sub_cancel_left]
    cases mask (i + 1) <;> rfl

structure IsMmBlock (promptLen first stop : ℕ) : Prop where
  lt : first < stop
  le : stop ≤ promptLen
  inside : ∀ i, first ≤ i → i < stop → mask i = true
  left : 0 < first → mask (first - 1) = false
  right : stop < promptLen → mask stop = false

/-- A chunk that ends at `pos` leaves part of a block to the next chunk. -/
def SplitsMmBlock (promptLen pos : ℕ) : Prop := ∃ first stop, IsMmBlock mask promptLen first stop ∧ first < pos ∧ pos < stop

theorem blockEnd_spec (steps pos : ℕ) :
    pos ≤ blockEnd (maskCumsum mask) steps pos ∧ blockEnd (maskCumsum mask) steps pos ≤ pos + steps ∧
      (∀ i, pos ≤ i → i < blockEnd (maskCumsum mask) steps pos → mask i = true) ∧
      (blockEnd (maskCumsum mask) steps pos < pos + steps → mask (blockEnd (maskCumsum mask) steps pos) = false) := by
  induction steps generalizing pos with
  | zero =>
    exact ⟨le_rfl, le_rfl, fun i hle hlt => absurd hlt hle.not_gt, fun hlt => absurd hlt (lt_irrefl _)⟩
  | succ steps ih =>
    rw [blockEnd, isMmPosition_maskCumsum]
    cases hmask : mask pos with
    | false =>
      exact ⟨le_rfl, Nat.le_add_right _ _, fun i hle hlt => absurd hlt hle.not_gt, fun _ => hmask⟩
    | true =>
      rw [if_pos rfl]
      obtain ⟨hle, hstop, hinside, hright⟩ := ih (pos + 1)
      refine ⟨by omega, by omega, ?_, fun hlt => hright (by omega)⟩
      intro i hi hlt
      by_cases hpos : i = pos
      · rw [hpos, hmask]
      · exact hinside i (by omega) hlt

theorem blockStart_spec (pos : ℕ) :
    (∀ i, blockStart (maskCumsum mask) pos ≤ i → i < pos → mask i = true) ∧
      (0 < blockStart (maskCumsum mask) pos → mask (blockStart (maskCumsum mask) pos - 1) = false) := by
  induction pos with
  | zero => exact ⟨fun i _ hlt => absurd hlt (Nat.not_lt_zero i), fun hlt => absurd hlt (lt_irrefl 0)⟩
  | succ pos ih =>
    rw [blockStart, isMmPosition_maskCumsum]
    cases hmask : mask pos with
    | false =>
      exact ⟨fun i hle hlt => absurd hlt hle.not_gt, fun _ => hmask⟩
    | true =>
      refine ⟨?_, ih.2⟩
      intro i hi hlt
      by_cases hpos : i = pos
      · rw [hpos, hmask]
      · exact ih.1 i hi (by omega)

theorem blockStart_lt {mask : ℕ → Bool} {pos : ℕ} (hpos : 0 < pos) (hmask : mask (pos - 1) = true) :
    blockStart (maskCumsum mask) pos < pos := by
  obtain ⟨n, rfl⟩ := Nat.exists_eq_succ_of_ne_zero hpos.ne'
  rw [blockStart, isMmPosition_maskCumsum, if_pos (show mask n = true from hmask)]
  exact Nat.lt_succ_of_le (KVCacheV2Scheduler.blockStart_le _ n)

theorem lt_blockEnd {mask : ℕ → Bool} {steps pos : ℕ} (hsteps : 0 < steps) (hmask : mask pos = true) :
    pos < blockEnd (maskCumsum mask) steps pos := by
  obtain ⟨n, rfl⟩ := Nat.exists_eq_succ_of_ne_zero hsteps.ne'
  rw [blockEnd, isMmPosition_maskCumsum, if_pos hmask]
  exact (blockEnd_spec mask n (pos + 1)).1

section Blocks

variable {mask : ℕ → Bool} {len pos first stop : ℕ}

theorem isMmBlock_walks (hpos : 0 < pos) (hlt : pos < len) (hbefore : mask (pos - 1) = true) :
    IsMmBlock mask len (blockStart (maskCumsum mask) pos) (blockEnd (maskCumsum mask) (len - pos) pos) := by
  obtain ⟨hle, hstop, hright, hend⟩ := blockEnd_spec mask (len - pos) pos
  obtain ⟨hleft, hstart⟩ := blockStart_spec mask pos
  have hfirst := blockStart_lt hpos hbefore
  refine ⟨by omega, by omega, ?_, hstart, fun h => hend (by omega)⟩
  intro i hi hlt
  by_cases hside : i < pos
  · exact hleft i hi hside
  · exact hright i (by omega) hlt

/-- A boundary splits a block just if both positions beside it are multimodal. -/
theorem splitsMmBlock_iff (hpos : 0 < pos) (hlt : pos < len) :
    SplitsMmBlock mask len pos ↔ mask (pos - 1) = true ∧ mask pos = true := by
  constructor
  · rintro ⟨first, stop, hblock, hfirst, hstop⟩
    exact ⟨hblock.inside (pos - 1) (by omega) (by omega), hblock.inside pos hfirst.le hstop⟩
  · rintro ⟨hbefore, hat⟩
    exact ⟨_, _, isMmBlock_walks hpos hlt hbefore, blockStart_lt hpos hbefore, lt_blockEnd (by omega) hat⟩

theorem IsMmBlock.unique {first' stop' : ℕ} (hblock : IsMmBlock mask len first stop)
    (hblock' : IsMmBlock mask len first' stop') (hfirst : first ≤ pos) (hstop : pos < stop) (hfirst' : first' ≤ pos)
    (hstop' : pos < stop') : first = first' ∧ stop = stop' := by
  have hlt : ∀ {a b a' b' : ℕ}, IsMmBlock mask len a b → IsMmBlock mask len a' b' → a ≤ pos → pos < b →
      a' ≤ pos → pos < b' → ¬ a < a' ∧ ¬ b < b' := by
    intro a b a' b' hab hab' ha hb ha' hb'
    constructor
    · intro h
      have hin := hab.inside (a' - 1) (by omega) (by omega)
      rw [hab'.left (by omega)] at hin
      cases hin
    · intro h
      have hin := hab'.inside b (by omega) h
      rw [hab.right (by have := hab'.le; omega)] at hin
      cases hin
  have hone := hlt hblock hblock' hfirst hstop hfirst' hstop'
  have htwo := hlt hblock' hblock hfirst' hstop' hfirst hstop
  omega

end Blocks

namespace KVCacheV2Scheduler

variable {κ : Type} {s : KVCacheV2Scheduler κ} {req : LlmRequest} {mask : ℕ → Bool} (remainingBudget : Option ℕ)
  {chunk left : ℕ}

def snapUp (s : KVCacheV2Scheduler κ) (promptLen stop : ℕ) : ℕ :=
  min (if 0 < s.chunkUnitSize ∧ stop < promptLen then (stop + s.chunkUnitSize - 1) / s.chunkUnitSize * s.chunkUnitSize
    else stop) promptLen

def snapDown (s : KVCacheV2Scheduler κ) (first : ℕ) : ℕ :=
  if 0 < s.chunkUnitSize then first / s.chunkUnitSize * s.chunkUnitSize else first

def WithinLimits (s : KVCacheV2Scheduler κ) (remainingBudget : Option ℕ) (size : ℕ) : Prop :=
  fits remainingBudget size = true ∧ fits s.maxContextLength size = true

instance (size : ℕ) : Decidable (s.WithinLimits remainingBudget size) := inferInstanceAs (Decidable (_ ∧ _))

variable (s) (mask)

/-- What is asked of a chunk that does not reach the end of the prompt. -/
structure SoundChunk (contextRemaining lo size : ℕ) : Prop where
  intact : ¬ (mask (lo + size - 1) = true ∧ mask (lo + size) = true)
  remaining : size ≤ contextRemaining
  limits : s.WithinLimits remainingBudget size

/-- The rounded end that takes the place of an end inside the block `[first, stop)` splits no other block, and keeps the
limits. -/
def SnapsBlock (contextRemaining lo first stop : ℕ) : Prop :=
  if s.WithinLimits remainingBudget (s.snapUp (lo + contextRemaining) stop - lo) then
    s.snapUp (lo + contextRemaining) stop < lo + contextRemaining →
      ¬ SplitsMmBlock mask (lo + contextRemaining) (s.snapUp (lo + contextRemaining) stop)
  else lo < s.snapDown first →
    ¬ SplitsMmBlock mask (lo + contextRemaining) (s.snapDown first) ∧ s.WithinLimits remainingBudget (s.snapDown first - lo)

/-- Where the proposed end splits no block, the proposed size is within the limits; where it splits one that fits into a
chunk, the end moves to a good place. -/
def SnapsSoundly (contextRemaining lo chunkSize : ℕ) : Prop :=
  (¬ SplitsMmBlock mask (lo + contextRemaining) (lo + chunkSize) → chunkSize < contextRemaining →
    s.WithinLimits remainingBudget chunkSize) ∧
  ∀ first stop, IsMmBlock mask (lo + contextRemaining) first stop → first < lo + chunkSize → lo + chunkSize < stop →
    fits s.maxContextLength (stop - first) = true → s.SnapsBlock mask remainingBudget contextRemaining lo first stop

variable {s}

theorem le_snapUp {len stop : ℕ} (hle : stop ≤ len) : stop ≤ s.snapUp len stop := by
  apply le_min _ hle
  split_ifs with hunit
  · have hmul := Nat.lt_div_mul_add (a := stop + s.chunkUnitSize - 1) hunit.1
    omega
  · exact le_rfl

theorem snapDown_le (first : ℕ) : s.snapDown first ≤ first := by
  unfold snapDown
  split_ifs
  · exact Nat.div_mul_le_self _ _
  · exact le_rfl

theorem snapChunk_eq {lo first stop : ℕ} (hstop : stop ≤ lo + left) (hend : lo + chunk < stop) :
    s.snapChunk remainingBudget left lo chunk first stop =
      if s.WithinLimits remainingBudget (s.snapUp (lo + left) stop - lo) then
        s.snapUp (lo + left) stop - lo
      else if s.snapDown first ≤ lo then 0 else s.snapDown first - lo := by
  have hge := le_snapUp (s := s) hstop
  have hle : s.snapUp (lo + left) stop ≤ lo + left := min_le_right _ _
  show (if (fits remainingBudget (s.snapUp (lo + left) stop - lo) &&
      fits s.maxContextLength (s.snapUp (lo + left) stop - lo) &&
      decide (s.snapUp (lo + left) stop - lo ≤ left) &&
      decide (chunk < s.snapUp (lo + left) stop - lo)) = true then _ else _) = _
  apply if_congr _ rfl rfl
  rw [decide_eq_true (show s.snapUp (lo + left) stop - lo ≤ left by omega),
    decide_eq_true (show chunk < s.snapUp (lo + left) stop - lo by omega), Bool.and_true, Bool.and_true,
    Bool.and_eq_true]
  rfl

variable (hmask : (s.pyData req.requestId).multimodalEmbedMaskCumsum = some (maskCumsum mask))

include hmask

variable {mask}

theorem alignChunkToMmBlock_eq_of_not_splits (hpos : 0 < chunk)
    (hnot : ¬ (chunk < left ∧ SplitsMmBlock mask (req.contextCurrentPosition + left)
      (req.contextCurrentPosition + chunk))) :
    s.alignChunkToMmBlock req chunk remainingBudget left = .ok chunk := by
  unfold alignChunkToMmBlock
  rw [hmask]
  dsimp only
  rw [isMmPosition_maskCumsum, isMmPosition_maskCumsum]
  by_cases hend : left ≤ chunk
  · rw [if_pos (by simp [hend])]
  rw [if_neg (by simp; omega), if_pos]
  -- otherwise both positions beside the end would be multimodal
  by_contra hboth
  simp only [Bool.not_eq_true', Bool.not_eq_false, Bool.and_eq_true] at hboth
  exact hnot ⟨by omega, (splitsMmBlock_iff (by omega) (by omega)).2 ⟨hboth.2, hboth.1⟩⟩

theorem alignChunkToMmBlock_eq_of_splits {first stop : ℕ}
    (h : IsMmBlock mask (req.contextCurrentPosition + left) first stop)
    (hfirst : first < req.contextCurrentPosition + chunk) (hstop : req.contextCurrentPosition + chunk < stop) :
    s.alignChunkToMmBlock req chunk remainingBudget left =
      if fits s.maxContextLength (stop - first) = true then
        .ok (s.snapChunk remainingBudget left req.contextCurrentPosition chunk first stop)
      else .error (.bidirectionalBlockTooLong req.requestId (stop - first) (s.maxContextLength.getD 0)) := by
  set lo := req.contextCurrentPosition with hlo
  have hle := h.le
  have hbefore : mask (lo + chunk - 1) = true := h.inside _ (by omega) (by omega)
  have hat : mask (lo + chunk) = true := h.inside _ hfirst.le hstop
  have hlt : lo + chunk < lo + left := by omega
  have hwalks := isMmBlock_walks (by omega) hlt hbefore
  obtain ⟨hfirst', hstop'⟩ := hwalks.unique h (blockStart_lt (by omega) hbefore).le (lt_blockEnd (by omega) hat)
    hfirst.le hstop
  unfold alignChunkToMmBlock
  rw [hmask]
  dsimp only
  rw [hfirst', hstop', isMmPosition_maskCumsum, isMmPosition_maskCumsum, hbefore, hat, if_neg (by simp; omega)]
  cases fits s.maxContextLength (stop - first) <;> rfl

omit hmask

theorem sound_ok_iff {lo size : ℕ} :
    (∀ size', (.ok size : Except V2Error ℕ) = .ok size' → 0 < size' → size' < left →
        s.SoundChunk mask remainingBudget left lo size') ↔
      (0 < size → size < left → ¬ SplitsMmBlock mask (lo + left) (lo + size) ∧ s.WithinLimits remainingBudget size) := by
  constructor
  · intro hsound hpos hlt
    have hchunk := hsound size rfl hpos hlt
    rw [splitsMmBlock_iff (by omega) (by omega)]
    exact ⟨hchunk.intact, hchunk.limits⟩
  · intro h size' hsize hpos hlt
    cases hsize
    rw [splitsMmBlock_iff (by omega) (by omega)] at h
    obtain ⟨hintact, hlimits⟩ := h hpos hlt
    exact ⟨hintact, hlt.le, hlimits⟩

/-- Every chunk that does not reach the end of the prompt keeps blocks intact and the limits, just if what the proposed
end is moved to does. -/
theorem alignChunkToMmBlock_sound_iff (s : KVCacheV2Scheduler κ) (req : LlmRequest) (mask : ℕ → Bool)
    (remainingBudget : Option ℕ) (chunkSize contextRemaining : ℕ)
    (hmask : (s.pyData req.requestId).multimodalEmbedMaskCumsum = some (maskCumsum mask)) (hpos : 0 < chunkSize)
    (hle : chunkSize ≤ contextRemaining) :
    (∀ size, s.alignChunkToMmBlock req chunkSize remainingBudget contextRemaining = .ok size → 0 < size →
        size < contextRemaining →
        s.SoundChunk mask remainingBudget contextRemaining req.contextCurrentPosition size) ↔
      s.SnapsSoundly mask remainingBudget contextRemaining req.contextCurrentPosition chunkSize := by
  set lo := req.contextCurrentPosition with hlo
  by_cases hsplits : chunkSize < contextRemaining ∧ SplitsMmBlock mask (lo + contextRemaining) (lo + chunkSize)
  · obtain ⟨hlt, first, stop, hblock, hfirst, hstop⟩ := hsplits
    have heq := alignChunkToMmBlock_eq_of_splits remainingBudget hmask hblock hfirst hstop
    have hstopLe := hblock.le
    have hone : s.SnapsSoundly mask remainingBudget contextRemaining lo chunkSize ↔
        (fits s.maxContextLength (stop - first) = true → SnapsBlock s mask remainingBudget contextRemaining lo first stop) := by
      constructor
      · exact fun hsound => hsound.2 first stop hblock hfirst hstop
      intro hsnaps
      refine ⟨fun hnot => absurd ⟨first, stop, hblock, hfirst, hstop⟩ hnot, ?_⟩
      intro first' stop' hblock' hfirst' hstop'
      obtain ⟨rfl, rfl⟩ := hblock.unique hblock' hfirst.le hstop hfirst'.le hstop'
      exact hsnaps
    rw [heq, hone]
    by_cases hfits : fits s.maxContextLength (stop - first) = true
    · rw [if_pos hfits, snapChunk_eq remainingBudget hstopLe hstop, sound_ok_iff, imp_iff_right hfits]
      have hge := le_snapUp (s := s) hstopLe
      have hdown := s.snapDown_le first
      unfold SnapsBlock
      split_ifs with hup hleft
      · rw [Nat.add_sub_cancel' (by omega)]
        exact ⟨fun h hlt => (h (by omega) (by omega)).1, fun h _ _ => ⟨h (by omega), hup⟩⟩
      · exact ⟨fun _ hlt => absurd hleft hlt.not_ge, fun _ h => absurd h (lt_irrefl 0)⟩
      · rw [Nat.add_sub_cancel' (by omega)]
        exact ⟨fun h _ => h (by omega) (by omega), fun h _ _ => h (by omega)⟩
    · rw [if_neg hfits]
      exact ⟨fun _ h => absurd h hfits, nofun⟩
  · rw [alignChunkToMmBlock_eq_of_not_splits remainingBudget hmask hpos hsplits, sound_ok_iff]
    constructor
    · intro hsound
      refine ⟨fun _ hlt => (hsound hpos hlt).2, ?_⟩
      intro first stop hblock hfirst hstop
      have hstopLe := hblock.le
      exact absurd ⟨by omega, first, stop, hblock, hfirst, hstop⟩ hsplits
    · intro hsnaps _ hlt
      have hnot : ¬ SplitsMmBlock mask (lo + contextRemaining) (lo + chunkSize) := fun h => hsplits ⟨hlt, h⟩
      exact ⟨hnot, hsnaps.1 hnot hlt⟩

def multimodal (positions : List ℕ) : KVCacheV2Scheduler (List ℕ) := { small 16 with
    ctxChunkConfig := some ⟨.firstComeFirstServed, 4, Nat.succ_pos 3⟩
    pyData := fun _ => ⟨false, some (maskCumsum fun i => i ∈ positions), false⟩ }

theorem alignChunkToMmBlock_sound_one_image :
    (∀ size, (multimodal [3, 4]).alignChunkToMmBlock (.arrived 1 12) 4 (some 10) 12 = .ok size → 0 < size → size < 12 →
        (multimodal [3, 4]).SoundChunk (fun i => i ∈ [3, 4]) (some 10) 12 0 size) ↔
      (multimodal [3, 4]).SnapsSoundly (fun i => i ∈ [3, 4]) (some 10) 12 0 4 :=
  alignChunkToMmBlock_sound_iff _ (.arrived 1 12) _ _ 4 12 rfl (by decide) (by decide)

/-- The end behind the image at 3 and 4 is rounded up to 8, into the image at 7 and 8. -/
theorem alignChunkToMmBlock_splits_second_image :
    (multimodal [3, 4, 7, 8]).alignChunkToMmBlock (.arrived 1 12) 4 (some 10) 12 = .ok 8 ∧
      (decide (7 ∈ [3, 4, 7, 8]) = true ∧ decide (8 ∈ [3, 4, 7, 8]) = true) := by
  decide +kernel

end KVCacheV2Scheduler

end TrtLlm.Scheduler
