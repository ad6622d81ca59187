import TrtLlm.KvCache.LifeCycle

/-!
# The longest sequence that the GPU pools can hold

`clamp_max_seq_len_for_mem` searches for the largest number of whole blocks for which there are enough slots. A sequence
needs most slots at the first token of a block, where the search does not look.
-/

namespace TrtLlm.KvCache

/-- What is left of a life cycle with `n` tokens once the stale blocks are gone. -/
def LifeCycle.liveBlocks (lc : LifeCycle) (n tokensPerBlock : Nat) : Nat :=
  divUp n tokensPerBlock - (lc.getStaleRange n tokensPerBlock).length

structure GpuPools where
  tokensPerBlock : Nat
  tokensPerBlock_pos : 0 < tokensPerBlock
  lifeCycles : List (LifeCycle × Nat)
  numPoolGroups : Nat
  numSlots : Nat → Nat

namespace GpuPools

variable (m : GpuPools)

def total (slots : LifeCycle → Nat) (pg : Nat) : Nat := ((m.lifeCycles.filter (·.2 = pg)).map fun lc => slots lc.1).sum

def getNumSlots (seqLen : Nat) : Nat → Nat := m.total fun lc => lc.liveBlocks seqLen m.tokensPerBlock

def remainingSlots (batchSize pg : Nat) : ℤ := m.numSlots pg - m.getNumSlots 1 pg * (batchSize - 1 : ℕ)

abbrev isEnough (batchSize numBlocks : Nat) : Prop :=
  ∀ pg < m.numPoolGroups, m.getNumSlots (numBlocks * m.tokensPerBlock) pg ≤ m.remainingSlots batchSize pg

/-- The `while` loop. -/
def searchBlocks (batchSize lb ub : Nat) : Nat :=
  if lb < ub - 1 then
    let mid := (lb + ub) / 2
    if m.isEnough batchSize mid then searchBlocks batchSize mid ub else searchBlocks batchSize lb mid
  else lb
termination_by ub - lb

def clampMaxSeqLenForMem (batchSize tokenNumUpperBound : Nat) : Option Nat :=
  let ub := divUp tokenNumUpperBound m.tokensPerBlock
  if batchSize = 0 then none
  else if (∃ pg < m.numPoolGroups, m.remainingSlots batchSize pg < 0) ∨ ¬ m.isEnough batchSize 1 then some 0
  else if m.isEnough batchSize ub then some tokenNumUpperBound
  else some (min (m.searchBlocks batchSize 1 ub * m.tokensPerBlock) tokenNumUpperBound)

/-- The slots that a sequence takes: one for each block in use, and one for SSM. -/
def needed (seqLen : Nat) : Nat → Nat := m.total fun
    | .ssm => 1
    | .attn lc => (LifeCycle.attn lc).liveBlocks seqLen m.tokensPerBlock

/-- There are slots for a sequence of `n` tokens besides the others of the batch, which have one token. -/
abbrev Fits (batchSize n : Nat) : Prop := ∀ pg < m.numPoolGroups, (batchSize - 1) * m.needed 1 pg + m.needed n pg ≤ m.numSlots pg

def firstOfBlock (n : Nat) : Nat := (n - 1) / m.tokensPerBlock * m.tokensPerBlock + 1

variable {m} {batchSize lb ub n n' : Nat}

theorem searchBlocks_spec (hlb : m.isEnough batchSize lb) (hlt : lb < ub) :
    m.isEnough batchSize (m.searchBlocks batchSize lb ub) ∧ m.searchBlocks batchSize lb ub < ub := by
  induction lb, ub using searchBlocks.induct m batchSize with
  | case1 lb ub hmore mid hmid ih =>
    rw [searchBlocks, if_pos hmore, if_pos hmid]
    exact ih hmid (by omega)
  | case2 lb ub hmore mid hmid ih =>
    rw [searchBlocks, if_pos hmore, if_neg hmid]
    obtain ⟨henough, hbelow⟩ := ih hlb (by omega)
    exact ⟨henough, hbelow.trans (show mid < ub by omega)⟩
  | case3 lb ub hdone =>
    rw [searchBlocks, if_neg hdone]
    exact ⟨hlb, hlt⟩

theorem isEnough_of_clamp {result : Nat} (h : m.clampMaxSeqLenForMem batchSize n = some result) (hpos : 0 < result) :
    m.isEnough batchSize (divUp result m.tokensPerBlock) := by
  have hblock := m.tokensPerBlock_pos
  unfold clampMaxSeqLenForMem at h
  extract_lets ub at h
  split_ifs at h with hbatch hnone henough
  · cases h
    exact absurd hpos (lt_irrefl 0)
  · cases h
    exact henough
  · cases h
    rw [not_or, not_not] at hnone
    have hlt : 1 < ub := by
      apply lt_of_le_of_ne ((lt_divUp_iff hblock).2 (by omega))
      intro hone
      exact henough (hone ▸ hnone.2)
    obtain ⟨hfound, hbelow⟩ := searchBlocks_spec hnone.2 hlt
    rw [min_eq_left ((lt_divUp_iff hblock).1 hbelow).le, divUp_mul hblock]
    exact hfound

/-- From one block to the next an attention life cycle needs no fewer blocks, and within a block no more. -/
theorem liveBlocks_le (hle : n ≤ n') (lc : AttnLifeCycle) :
    (LifeCycle.attn lc).liveBlocks n m.tokensPerBlock ≤ (LifeCycle.attn lc).liveBlocks (m.firstOfBlock n') m.tokensPerBlock := by
  have hblock := m.tokensPerBlock_pos
  set q := (n' - 1) / m.tokensPerBlock with hq
  have hq' : n' - 1 < q * m.tokensPerBlock + m.tokensPerBlock := Nat.lt_div_mul_add hblock
  have hfirst : divUp (m.firstOfBlock n') m.tokensPerBlock = q + 1 := by
    apply le_antisymm
    · rw [divUp_le_iff hblock, firstOfBlock, ← hq, Nat.succ_mul]
      omega
    · exact (lt_divUp_iff hblock).2 (Nat.lt_succ_self _)
  obtain ⟨d, hd⟩ : ∃ d, q + 1 = divUp n m.tokensPerBlock + d := by
    apply Nat.exists_eq_add_of_le
    rw [divUp_le_iff hblock, Nat.succ_mul]
    omega
  have hstep : m.firstOfBlock n' ≤ n + d * m.tokensPerBlock := by
    have hlow : divUp n m.tokensPerBlock * m.tokensPerBlock ≤ n + m.tokensPerBlock - 1 := Nat.div_mul_le_self _ _
    have hmul := congrArg (· * m.tokensPerBlock) hd
    simp only [Nat.add_mul] at hmul
    rw [firstOfBlock, ← hq]
    omega
  simp only [LifeCycle.liveBlocks, LifeCycle.getStaleRange, AttnLifeCycle.getStaleRange]
  cases lc.windowSize with
  | none =>
    simp only [HalfOpenRange.length]
    omega
  | some w =>
    have hstale : (m.firstOfBlock n' + 1 - w) / m.tokensPerBlock ≤ (n + 1 - w) / m.tokensPerBlock + d := by
      rw [← Nat.add_mul_div_right _ _ hblock]
      exact Nat.div_le_div_right (by omega)
    simp only [HalfOpenRange.length]
    omega

def onePool (windowSize : Option Nat) (numSlots : Nat) : GpuPools :=
  ⟨4, by decide, [(.attn ⟨windowSize, 0⟩, 0)], 1, fun _ => numSlots⟩

end GpuPools

end TrtLlm.KvCache
