import Mathlib

/-!
# Pairing blocks for a disaggregated transfer

Context and generation server each cut the block list of a request down to the blocks to transfer (`_create_kv_slice`);
the sender pairs the two lists (`_build_kv_write_meta`). No positions are exchanged: each list is taken to be the suffix
of the prompt's blocks that its length says. A manager that has dropped blocks before the window and holds spare ones
past the prompt breaks that reading.
-/

namespace TrtLlm.Disaggregation

open List

inductive TransferError where
  | blockCountMismatch
  | srcExceedsSlice
  | dstExceedsSlice
deriving DecidableEq, Repr

structure TransferRequest where
  promptLen : ℕ
  beamWidth : ℕ
  isGenerationOnly : Bool
  /-- The block-aligned prefix that the cache manager reports as reused. -/
  cachedTokens : ℕ

def totalBlocks (tpb promptLen : ℕ) : ℕ := (promptLen + tpb - 1) / tpb

/-- `max(0, (prompt_len + 1 - window_size) // tpb)`, with no blocks stale without a window. -/
def staleEnd (tpb promptLen : ℕ) : Option ℕ → ℕ
  | none => 0
  | some windowSize => (promptLen + 1 - windowSize) / tpb

section Code

variable {α : Type*} (blockIds : List α)

def splitPackedBeamBlockIds (beamWidth totalBlocks : ℕ) : List α × List α :=
  if beamWidth ≤ 1 ∨ blockIds.length ≤ totalBlocks then (blockIds, []) else
  let tailCount := min (beamWidth - 1) (blockIds.length - totalBlocks)
  (blockIds.take (blockIds.length - tailCount), blockIds.drop (blockIds.length - tailCount))

def trimPackedBeamBlockIds (beamWidth totalBlocks expectedValid cacheSkip : ℕ) : List α :=
  if expectedValid = 0 then [] else
  let (beam0, tail) := splitPackedBeamBlockIds blockIds beamWidth totalBlocks
  let beam0 := if beam0.length > expectedValid then beam0.drop (beam0.length - expectedValid) else beam0
  if cacheSkip = 0 then beam0 ++ tail
  else if cacheSkip < beam0.length then beam0.drop cacheSkip ++ tail
  else []

/-- The loop body of `_create_kv_slice` for one attention layer group. -/
def createKvSlice (tpb : ℕ) (window : Option ℕ) (req : TransferRequest) (blockIds : List α) : List α :=
  let cached := if req.isGenerationOnly then req.cachedTokens else 0
  let total := totalBlocks tpb req.promptLen
  let blockIds := if blockIds.length > total then blockIds.take total else blockIds
  let stale := staleEnd tpb req.promptLen window
  trimPackedBeamBlockIds blockIds req.beamWidth total (total - stale) (cached / tpb - stale)

def beam0BlockCount (totalBlocks beamWidth : ℕ) : ℕ :=
  if beamWidth ≤ 1 ∨ blockIds.length ≤ totalBlocks then blockIds.length else blockIds.length - (beamWidth - 1)

def alignKvBlocks (src dst : List α) (srcTokenStart dstTokenStart tpb : ℕ) : List α × List α :=
  let overlapStart := max srcTokenStart dstTokenStart
  let srcSkip := (overlapStart - srcTokenStart) / tpb
  let dstSkip := (overlapStart - dstTokenStart) / tpb
  let nTransfer := min (src.length - srcSkip) (dst.length - dstSkip)
  ((src.drop srcSkip).take nTransfer, (dst.drop dstSkip).take nTransfer)

/-- The loop body of `_build_kv_write_meta` up to the pairing, for one pair of pools. The slice ends with the prompt;
the receiver sends no start token. -/
def buildKvWriteMeta (tpb : ℕ) (window : Option ℕ) (promptLen beamWidth : ℕ) (src dst : List α) :
    Except TransferError (List α × List α) :=
  if dst.length > src.length then .error .blockCountMismatch else
  let total := totalBlocks tpb promptLen
  let srcBlocks := beam0BlockCount src total beamWidth
  let dstBlocks := beam0BlockCount dst total beamWidth
  if srcBlocks > total then .error .srcExceedsSlice
  else if dstBlocks > total then .error .dstExceedsSlice
  else
    let stale := staleEnd tpb promptLen window
    .ok (alignKvBlocks src dst (max (stale * tpb) ((total - srcBlocks) * tpb))
      (max (stale * tpb) ((total - dstBlocks) * tpb)) tpb)

end Code

def transfer {α : Type*} (tpb : ℕ) (window : Option ℕ) (promptLen cachedTokens : ℕ) (src dst : List α) :
    Except TransferError (List α × List α) :=
  buildKvWriteMeta tpb window promptLen 1 (createKvSlice tpb window ⟨promptLen, 1, false, 0⟩ src)
    (createKvSlice tpb window ⟨promptLen, 1, true, cachedTokens⟩ dst)

/-- The ordinals of the blocks that a manager lists for a request: some before the window, all from there to the end of
the prompt, and some past it. -/
structure HeldBlocks (tpb promptLen : ℕ) (window : Option ℕ) where
  front : List ℕ
  spare : List ℕ
  front_sorted : front.Pairwise (· < ·)
  front_lt : ∀ k ∈ front, k < staleEnd tpb promptLen window
  spare_sorted : spare.Pairwise (· < ·)
  spare_ge : ∀ k ∈ spare, totalBlocks tpb promptLen ≤ k

namespace HeldBlocks

variable {tpb promptLen : ℕ} {window : Option ℕ} (held : HeldBlocks tpb promptLen window)

def ordinals : List ℕ :=
  held.front ++ List.range' (staleEnd tpb promptLen window)
    (totalBlocks tpb promptLen - staleEnd tpb promptLen window) ++ held.spare

/-- The length of the list says where it starts: no block past the prompt is listed, or none before the window is missing. -/
def Counted : Prop := held.spare = [] ∨ held.front.length = staleEnd tpb promptLen window

theorem length_front_le : held.front.length ≤ staleEnd tpb promptLen window := by
  have hnodup : held.front.Nodup := held.front_sorted.imp ne_of_lt
  have hsub : held.front ⊆ range (staleEnd tpb promptLen window) := fun k hk =>
    mem_range.2 (held.front_lt k hk)
  simpa using (subperm_of_subset hnodup hsub).length_le

end HeldBlocks

/-- The block holds prompt tokens of the window behind the reused prefix. -/
def Needed (tpb promptLen : ℕ) (window : Option ℕ) (cachedTokens k : ℕ) : Prop :=
  k * tpb < promptLen ∧ (∀ w ∈ window, promptLen + 1 < (k + 1) * tpb + w) ∧ cachedTokens ≤ k * tpb

/-- Paired blocks hold the same positions; the pairs are all that are needed and none past the prompt. -/
structure PairsOk (tpb promptLen : ℕ) (window : Option ℕ) (cachedTokens : ℕ) (src dst : List ℕ) : Prop where
  same : src = dst
  needed : ∀ k, Needed tpb promptLen window cachedTokens k → k ∈ dst
  prompt : ∀ k ∈ dst, k * tpb < promptLen

section Lists

variable {α : Type*} {tpb promptLen : ℕ} {window : Option ℕ}

/-- The part of a block list that the code takes for the prompt's blocks from `skip` blocks behind the stale ones on. -/
def taken (tpb promptLen : ℕ) (window : Option ℕ) (skip : ℕ) (blocks : List α) : List α :=
  let n := min blocks.length (totalBlocks tpb promptLen)
  (blocks.take n).drop (n - (totalBlocks tpb promptLen - staleEnd tpb promptLen window) + skip)

variable {blocks : List α}

theorem length_taken (window : Option ℕ) (skip : ℕ)
    (h : totalBlocks tpb promptLen - staleEnd tpb promptLen window ≤ blocks.length) :
    (taken tpb promptLen window skip blocks).length = totalBlocks tpb promptLen - staleEnd tpb promptLen window - skip := by
  simp only [taken, length_drop, length_take]
  omega

theorem trimPackedBeamBlockIds_one {total valid : ℕ} (skip : ℕ) (h : valid ≤ blocks.length) :
    trimPackedBeamBlockIds blocks 1 total valid skip = blocks.drop (blocks.length - valid + skip) := by
  have hlast : (if blocks.length > valid then blocks.drop (blocks.length - valid) else blocks) =
      blocks.drop (blocks.length - valid) := by
    split
    · rfl
    · rw [Nat.sub_eq_zero_of_le (by omega), drop_zero]
  by_cases hvalid : valid = 0
  · simp [trimPackedBeamBlockIds, hvalid]
  simp only [trimPackedBeamBlockIds, splitPackedBeamBlockIds, hvalid, le_refl, true_or, if_true, if_false, hlast,
    append_nil, length_drop, drop_drop]
  split
  · simp [*]
  · split
    · rfl
    · exact (drop_eq_nil_of_le (by omega)).symm

theorem createKvSlice_eq {req : TransferRequest} (hbeam : req.beamWidth = 1)
    (h : totalBlocks tpb req.promptLen - staleEnd tpb req.promptLen window ≤ blocks.length) :
    createKvSlice tpb window req blocks = taken tpb req.promptLen window
      ((if req.isGenerationOnly then req.cachedTokens else 0) / tpb - staleEnd tpb req.promptLen window) blocks := by
  have hprompt : (if blocks.length > totalBlocks tpb req.promptLen then blocks.take (totalBlocks tpb req.promptLen)
      else blocks) = blocks.take (min blocks.length (totalBlocks tpb req.promptLen)) := by
    split
    · rw [min_eq_right (by omega)]
    · rw [min_eq_left (by omega), take_length]
  have hlen : (blocks.take (min blocks.length (totalBlocks tpb req.promptLen))).length =
      min blocks.length (totalBlocks tpb req.promptLen) := by simp
  simp only [createKvSlice, hprompt, hbeam]
  rw [trimPackedBeamBlockIds_one _ (by omega), hlen]
  rfl

theorem alignKvBlocks_mul (htpb : 0 < tpb) {a b : ℕ} (hab : a ≤ b) (src dst : List α) :
    alignKvBlocks src dst (a * tpb) (b * tpb) tpb =
      ((src.drop (b - a)).take (min (src.length - (b - a)) dst.length), dst.take (min (src.length - (b - a)) dst.length)) := by
  have hmax : max (a * tpb) (b * tpb) = b * tpb := max_eq_right (Nat.mul_le_mul_right tpb hab)
  simp [alignKvBlocks, hmax, ← Nat.sub_mul, Nat.mul_div_cancel _ htpb]

theorem transfer_eq (htpb : 0 < tpb) {cached : ℕ} {src dst : List α}
    (hsrc : totalBlocks tpb promptLen - staleEnd tpb promptLen window ≤ src.length)
    (hdst : totalBlocks tpb promptLen - staleEnd tpb promptLen window ≤ dst.length) :
    transfer tpb window promptLen cached src dst =
      .ok (taken tpb promptLen window (cached / tpb - staleEnd tpb promptLen window) src,
        taken tpb promptLen window (cached / tpb - staleEnd tpb promptLen window) dst) := by
  rw [transfer, createKvSlice_eq rfl hsrc, createKvSlice_eq rfl hdst]
  simp only [Bool.false_eq_true, if_false, if_true, Nat.zero_div, Nat.zero_sub]
  generalize hskip : cached / tpb - staleEnd tpb promptLen window = skip
  have hsrcLen := length_taken window 0 hsrc
  have hdstLen := length_taken window skip hdst
  simp only [buildKvWriteMeta, beam0BlockCount, le_refl, true_or, if_true, Nat.mul_max_mul_right]
  rw [if_neg (by omega), if_neg (by omega), if_neg (by omega), alignKvBlocks_mul htpb (by omega), hsrcLen, hdstLen]
  have hdrop : (taken tpb promptLen window 0 src).drop skip = taken tpb promptLen window skip src := by
    simp [taken]
  have hskipLen := length_taken window skip hsrc
  generalize totalBlocks tpb promptLen = total, staleEnd tpb promptLen window = stale at *
  by_cases hle : skip ≤ total - stale
  · rw [show max stale (total - (total - stale - skip)) - max stale (total - (total - stale - 0)) = skip by omega,
      hdrop, show min (total - stale - 0 - skip) (total - stale - skip) = total - stale - skip by omega]
    rw [← hskipLen, take_length, hskipLen, ← hdstLen, take_length]
  · rw [show min (total - stale - 0 - _) (total - stale - skip) = 0 by omega]
    have hnil : total - stale - skip = 0 := by omega
    rw [hnil] at hskipLen hdstLen
    rw [length_eq_zero_iff.1 hskipLen, length_eq_zero_iff.1 hdstLen]
    simp

theorem map_taken (f : α → ℕ) (skip : ℕ) (blocks : List α) :
    (taken tpb promptLen window skip blocks).map f = taken tpb promptLen window skip (blocks.map f) := by
  simp [taken]

end Lists

section Pairs

variable {tpb promptLen : ℕ} {window : Option ℕ}

theorem lt_totalBlocks (htpb : 0 < tpb) (k : ℕ) : k < totalBlocks tpb promptLen ↔ k * tpb < promptLen := by
  rw [totalBlocks, Nat.lt_iff_add_one_le, Nat.le_div_iff_mul_le htpb, Nat.add_mul]
  omega

theorem staleEnd_le (htpb : 0 < tpb) (k : ℕ) :
    staleEnd tpb promptLen window ≤ k ↔ ∀ w ∈ window, promptLen + 1 < (k + 1) * tpb + w := by
  cases window with
  | none => simp [staleEnd]
  | some w =>
    have hpos : 0 < (k + 1) * tpb := Nat.mul_pos (Nat.succ_pos k) htpb
    simp only [staleEnd, ← Nat.lt_add_one_iff, Nat.div_lt_iff_lt_mul htpb, Option.mem_def, Option.some.injEq, forall_eq']
    omega

theorem needed_iff (htpb : 0 < tpb) {cached : ℕ} (hcached : tpb ∣ cached) (k : ℕ) :
    Needed tpb promptLen window cached k ↔
      staleEnd tpb promptLen window + (cached / tpb - staleEnd tpb promptLen window) ≤ k ∧
        k < totalBlocks tpb promptLen := by
  obtain ⟨c, rfl⟩ := hcached
  rw [Needed, ← lt_totalBlocks htpb, ← staleEnd_le htpb, Nat.mul_div_cancel_left c htpb, mul_comm k, Nat.mul_le_mul_left_iff htpb]
  omega

variable (held : HeldBlocks tpb promptLen window)

theorem length_ordinals : held.ordinals.length = held.front.length +
    (totalBlocks tpb promptLen - staleEnd tpb promptLen window) + held.spare.length := by
  simp [HeldBlocks.ordinals, add_assoc]

theorem taken_of_counted (hcounted : held.Counted) (skip : ℕ) :
    taken tpb promptLen window skip held.ordinals = List.range' (staleEnd tpb promptLen window + skip)
      (totalBlocks tpb promptLen - staleEnd tpb promptLen window - skip) := by
  have hfront := held.length_front_le
  have hlen := length_ordinals held
  by_cases hvalid : totalBlocks tpb promptLen ≤ staleEnd tpb promptLen window
  · have hfits : totalBlocks tpb promptLen - staleEnd tpb promptLen window ≤ held.ordinals.length := by omega
    have hnil := length_taken window skip hfits
    rw [Nat.sub_eq_zero_of_le hvalid, Nat.zero_sub] at hnil
    rw [length_eq_zero_iff.1 hnil, Nat.sub_eq_zero_of_le hvalid, Nat.zero_sub, List.range'_zero]
  · have hn : min held.ordinals.length (totalBlocks tpb promptLen) = held.front.length +
        (totalBlocks tpb promptLen - staleEnd tpb promptLen window) := by
      rcases hcounted with hspare | hall
      · rw [hlen, hspare, length_nil]
        omega
      · omega
    rw [taken, hn, HeldBlocks.ordinals, take_left' (by simp), Nat.add_sub_cancel, drop_length_add_append, drop_range', mul_one]

theorem exists_spare_taken (hcounted : ¬ held.Counted) {skip : ℕ}
    (hskip : staleEnd tpb promptLen window + skip < totalBlocks tpb promptLen) :
    ∃ k ∈ taken tpb promptLen window skip held.ordinals, totalBlocks tpb promptLen ≤ k := by
  obtain ⟨hspare, hmissing⟩ := not_or.1 hcounted
  have hpos := length_pos_of_ne_nil hspare
  have hfront := held.length_front_le
  have hlen := length_ordinals held
  -- the last block taken lies past the prompt
  obtain ⟨n, hn⟩ : ∃ n, min held.ordinals.length (totalBlocks tpb promptLen) = n + 1 := Nat.exists_eq_add_one.2 (by omega)
  have hlast : n < held.ordinals.length := by omega
  refine ⟨held.ordinals.get ⟨n, hlast⟩, ?_, held.spare_ge _ ?_⟩
  · rw [taken, hn, mem_drop_iff_getElem]
    refine ⟨n - (n + 1 - (totalBlocks tpb promptLen - staleEnd tpb promptLen window) + skip), ?_, ?_⟩
    · rw [length_take]
      omega
    · rw [getElem_take]
      congr 1
      omega
  · rw [get_eq_getElem]
    simp only [HeldBlocks.ordinals]
    rw [getElem_append_right (by simp; omega)]
    exact getElem_mem _

/-- The two lists are paired by position, with all needed blocks and none past the prompt, exactly if no block is needed
or both lists are counted. -/
theorem transfer_pairsOk_iff {α : Type*} (htpb : 0 < tpb) {cachedTokens : ℕ} (hcached : tpb ∣ cachedTokens)
    (sent received : HeldBlocks tpb promptLen window) (ordinal : α → ℕ) {src dst : List α}
    (hsrc : src.map ordinal = sent.ordinals) (hdst : dst.map ordinal = received.ordinals) :
    (∀ pairs, transfer tpb window promptLen cachedTokens src dst = .ok pairs →
      PairsOk tpb promptLen window cachedTokens (pairs.1.map ordinal) (pairs.2.map ordinal)) ↔
    (∀ k, ¬ Needed tpb promptLen window cachedTokens k) ∨ sent.Counted ∧ received.Counted := by
  have hlen : ∀ (held : HeldBlocks tpb promptLen window) (blocks : List α), blocks.map ordinal = held.ordinals →
      totalBlocks tpb promptLen - staleEnd tpb promptLen window ≤ blocks.length := by
    intro held blocks hblocks
    have hmap := congrArg length hblocks
    rw [length_map, length_ordinals] at hmap
    omega
  rw [transfer_eq htpb (hlen sent src hsrc) (hlen received dst hdst)]
  simp only [Except.ok.injEq, forall_eq', map_taken, hsrc, hdst]
  generalize hskip : cachedTokens / tpb - staleEnd tpb promptLen window = skip
  have hneeded := hskip ▸ needed_iff htpb hcached
  constructor
  · intro h
    by_contra hnot
    obtain ⟨⟨k, hk⟩, hcounted⟩ : (∃ k, Needed tpb promptLen window cachedTokens k) ∧
        ¬ (sent.Counted ∧ received.Counted) := by simpa using hnot
    have hroom : staleEnd tpb promptLen window + skip < totalBlocks tpb promptLen := by
      have := (hneeded k).1 hk
      omega
    have hpast : ∃ held : HeldBlocks tpb promptLen window, ¬ held.Counted ∧
        taken tpb promptLen window skip held.ordinals = taken tpb promptLen window skip received.ordinals := by
      by_cases hsent : sent.Counted
      · exact ⟨received, fun hreceived => hcounted ⟨hsent, hreceived⟩, rfl⟩
      · exact ⟨sent, hsent, h.same⟩
    obtain ⟨held, hheld, heq⟩ := hpast
    obtain ⟨j, hj, hge⟩ := exists_spare_taken held hheld hroom
    have hlt := (lt_totalBlocks htpb j).2 (h.prompt j (heq ▸ hj))
    omega
  · rintro (hnone | ⟨hsent, hreceived⟩)
    · have hnil : ∀ held : HeldBlocks tpb promptLen window, taken tpb promptLen window skip held.ordinals = [] := by
        intro held
        have hroom := hnone (staleEnd tpb promptLen window + skip)
        rw [hneeded] at hroom
        refine length_eq_zero_iff.1 ((length_taken window skip ?_).trans (by omega))
        rw [length_ordinals]
        omega
      rw [hnil sent, hnil received]
      exact ⟨rfl, fun k hk => absurd hk (hnone k), fun k hk => absurd hk not_mem_nil⟩
    · rw [taken_of_counted sent hsent, taken_of_counted received hreceived]
      refine ⟨rfl, fun k hk => ?_, fun k hk => ?_⟩
      · have := (hneeded k).1 hk
        rw [mem_range'_1]
        omega
      · rw [mem_range'_1] at hk
        exact (lt_totalBlocks htpb k).1 (by omega)

/-- The lists of two managers that agree on the prompt: one lists all blocks before the window, the other none. -/
theorem transfer_pairsOk_window : let pairs := ([3], [3])
    transfer 2 (some 5) 8 6 [0, 1, 2, 3, 4, 5] [2, 3] = .ok pairs ∧ PairsOk 2 8 (some 5) 6 pairs.1 pairs.2 := by
  intro pairs
  have htransfer : transfer 2 (some 5) 8 6 [0, 1, 2, 3, 4, 5] [2, 3] = .ok pairs := rfl
  exact ⟨htransfer, (transfer_pairsOk_iff (by decide) (by decide)
    ⟨[0, 1], [4, 5], by decide, by decide, by decide, by decide⟩ ⟨[], [], by decide, by decide, by decide, by decide⟩
    id rfl rfl).2 (.inr ⟨.inr rfl, .inl rfl⟩) pairs htransfer⟩

/-- Blocks 0 and 1 have left the window of the context server, and blocks 4 and 5 are spare: they are sent as the last two
blocks of the prompt. -/
theorem transfer_shifted : ∃ sent received : HeldBlocks 2 8 (some 5),
    transfer 2 (some 5) 8 0 sent.ordinals received.ordinals = .ok ([4, 5], [2, 3]) :=
  ⟨⟨[], [4, 5], by decide, by decide, by decide, by decide⟩, ⟨[], [], by decide, by decide, by decide, by decide⟩, rfl⟩

end Pairs

end TrtLlm.Disaggregation
