import TrtLlm.KvCache.RadixTree.Invariant

/-!
# Matching

`BlockRadixTree.match`: the path of blocks that the tokens lead to, then pruned until every page that reuse needs is
there. A prefix of a path is given by its number of tokens alone (`takeTokens`), and so is what its reuse needs
(`Reusable`); the pruning loop then finds the greatest reusable number (`pruneMatch_spec`).
-/

namespace TrtLlm.KvCache

open List Option Prod

def ssmLifeCycleId (registry : List LifeCycle) : Option LifeCycleId := getLifeCycleId registry .ssm

def attentionLifeCycles (registry : List LifeCycle) : List (LifeCycleId × AttnLifeCycle) :=
  registry.zipIdx.filterMap fun entry =>
    match entry with
    | (.attn lc, id) => some (id, lc)
    | (.ssm, _) => none

theorem mem_attentionLifeCycles {registry : List LifeCycle} {id : LifeCycleId} {lc : AttnLifeCycle} :
    (id, lc) ∈ attentionLifeCycles registry ↔ registry[id]? = some (.attn lc) := by
  rw [attentionLifeCycles, mem_filterMap]
  constructor
  · rintro ⟨⟨details, i⟩, hmem, hsome⟩
    cases details with
    | attn lc' =>
      cases hsome
      exact mem_zipIdx_iff_getElem?.1 hmem
    | ssm => cases hsome
  · intro hget
    exact ⟨(.attn lc, id), mem_zipIdx_iff_getElem?.2 hget, rfl⟩

namespace RadixTree

variable {κ τ : Type}

/-- Blocks on a path, with the number of tokens matched in each. -/
abbrev Matched := List (BlockId × Nat)

structure ReuseMatch where
  blocks : List BlockId
  numTokens : Nat
  numLookupTokens : Nat
deriving DecidableEq, Repr

/-! ### The path of the tokens -/

variable (p : TreeParams κ τ)

/-- The token blocks and keys that `sequence_to_blockchain_keys` yields after the root; each round takes a token. -/
def blockKeysLoop (p : TreeParams κ τ) : Nat → κ → List τ → List (List τ × κ)
  | 0, _, _ => []
  | fuel + 1, key, tokens =>
    match tokens.take p.tokensPerBlock with
    | [] => []
    | token :: rest =>
      let key := p.makeKey key (token :: rest)
      (token :: rest, key) :: blockKeysLoop p fuel key (tokens.drop p.tokensPerBlock)

variable (scope : ReuseScope) (tokens : List τ)

def blockKeys : List (List τ × κ) := blockKeysLoop p tokens.length (p.rootKey scope) tokens

section

variable [DecidableEq τ]

def partialMatchThisNode : List τ → List τ → Nat
  | a :: as, b :: bs => if a = b then partialMatchThisNode as bs + 1 else 0
  | _, _ => 0

/-- One round of the loop of `find_best_partial_match_in_next_nodes`. -/
def betterPartialMatch (t : RadixTree κ τ) (tokens : List τ) (best : Option BlockId × Nat) (b : BlockId) :
    Option BlockId × Nat :=
  let matchLen := partialMatchThisNode tokens (t.tokensOf b)
  if best.2 < matchLen then (some b, matchLen) else best

def bestPartialMatch (t : RadixTree κ τ) (tokens : List τ) (children : List BlockId) : Option BlockId × Nat :=
  children.foldl (t.betterPartialMatch tokens) (none, 0)

def findBestPartialMatchInNextNodes (t : RadixTree κ τ) (next : Dict κ BlockId) (tokens : List τ) :
    Option BlockId × Nat :=
  if 32 ≤ next.entries.length then (none, 0) else t.bestPartialMatch tokens next.values

end

variable [DecidableEq κ] (t : RadixTree κ τ)

def child? (block : ParentId) (key : κ) : Option BlockId := (t.nextOf block).bind (·.get? key)

/-- The loop of `_match_token_path` at `block`: the blocks it yields, and where it broke off at which token block. -/
def descend (t : RadixTree κ τ) : ParentId → List (List τ × κ) → Matched × Option (ParentId × List τ)
  | _, [] => ([], none)
  | block, (tokenBlock, key) :: rest =>
    match t.child? block key with
    | some child =>
      let (matched, stop) := t.descend (.block child) rest
      ((child, tokenBlock.length) :: matched, stop)
    | none => ([], some (block, tokenBlock))

variable [DecidableEq τ]

def yieldPartial : Option BlockId × Nat → Matched
  | (some partialBlock, matchLen) => [(partialBlock, matchLen)]
  | (none, _) => []

theorem mem_yieldPartial {best : Option BlockId × Nat} {b : BlockId} : b ∈ (yieldPartial best).map fst ↔ best.1 = some b := by
  obtain ⟨best, matchLen⟩ := best
  cases best <;> simp [yieldPartial, eq_comm]

variable (enablePartialMatch : Bool)

/-- The block that `_match_token_path` adds for a token block it could not match as a whole. -/
def partialTail : Option (ParentId × List τ) → Matched
  | none => []
  | some (block, tokenBlock) =>
    if enablePartialMatch then
      ((t.nextOf block).map fun next => yieldPartial (t.findBestPartialMatchInNextNodes next tokenBlock)).getD []
    else []

def matchTokenPath : Matched :=
  match t.next.get? (p.rootKey scope) with
  | none => []
  | some root =>
    let (matched, stop) := t.descend (.root root) (blockKeys p scope tokens)
    matched ++ t.partialTail enablePartialMatch stop

section Prune

variable (tokensPerBlock : Nat) (lifeCycles : List LifeCycle) (coverage : LifeCycleId → BlockId → Nat) (matched : Matched)

def numMatchedTokens : Nat :=
  match matched.getLast? with
  | none => 0
  | some last => tokensPerBlock * (matched.length - 1) + last.2

/-- Cuts the match at the last SSM snapshot within its first `i` blocks. -/
def ssmTruncate (ssm : LifeCycleId) (matched : Matched) : Nat → Matched
  | 0 => []
  | i + 1 =>
    match matched[i]? with
    | none => []
    | some (block, numMatched) =>
      if 0 < coverage ssm block ∧ coverage ssm block ≤ numMatched then
        matched.take i ++ [(block, coverage ssm block)]
      else ssmTruncate ssm matched i

/-- Cuts the match at block `i` if its page covers less of the block than the match. -/
def cutAtShortPage (lc : LifeCycleId) (matched : Matched) (i : Nat) : Option Matched :=
  matched[i]?.bind fun (block, numMatched) =>
    if numMatched ≤ coverage lc block then none
    else if 0 < coverage lc block then some (matched.take i ++ [(block, coverage lc block)])
    else some (matched.take i)

/-- The first cut that a required attention page asks for. -/
def attnTruncate : Option Matched :=
  (attentionLifeCycles lifeCycles).findSome? fun (id, lc) =>
    let stale := lc.getStaleRange (numMatchedTokens tokensPerBlock matched) tokensPerBlock
    (List.range stale.beg ++ List.range' stale.stop (matched.length - stale.stop)).findSome? (cutAtShortPage coverage id matched)

/-- The loop of `_prune_match`; `none` is missing fuel. -/
def pruneLoop : Nat → Matched → Option Matched
  | 0, _ => none
  | _ + 1, [] => some []
  | fuel + 1, entry :: rest =>
    let matched := match ssmLifeCycleId lifeCycles with
      | some ssm => ssmTruncate coverage ssm (entry :: rest) (rest.length + 1)
      | none => entry :: rest
    if matched = [] then some []
    else
      match attnTruncate tokensPerBlock lifeCycles coverage matched with
      | none => some matched
      | some shorter => pruneLoop fuel shorter

/-- `BlockRadixTree._prune_match`; `none` is a failed assertion. Every retry drops at least one token. -/
def pruneMatch : Option Matched :=
  if ∀ entry ∈ matched.dropLast, entry.2 = tokensPerBlock then
    pruneLoop tokensPerBlock lifeCycles coverage (numMatchedTokens tokensPerBlock matched + 1) matched
  else none

end Prune

def reuseMatch : Option ReuseMatch :=
  (pruneMatch p.tokensPerBlock p.lifeCycles (fun lc id => t.pageCoverage id lc)
    (t.matchTokenPath p scope tokens enablePartialMatch)).map fun matched =>
      ⟨matched.map fst, numMatchedTokens p.tokensPerBlock matched, tokens.length⟩

/-! ### Prefixes of a path -/

section Prefix

variable {tpb : Nat} {blocks : List BlockId} {n : Nat}

def takeTokens (tokensPerBlock : Nat) (blocks : List BlockId) (n : Nat) : Matched :=
  (blocks.take (divUp n tokensPerBlock)).mapIdx fun j block =>
    (block, min tokensPerBlock (n - j * tokensPerBlock))

omit [DecidableEq κ] [DecidableEq τ]

theorem add_le_mul_of_lt {i j : Nat} (hj : j < i) (n : Nat) : j * n + n ≤ i * n := by
  rw [← Nat.succ_mul]
  exact Nat.mul_le_mul_right n hj

theorem length_takeTokens (hn : divUp n tpb ≤ blocks.length) : (takeTokens tpb blocks n).length = divUp n tpb := by
  rw [takeTokens, length_mapIdx, length_take]
  omega

variable (hpos : 0 < tpb)

include hpos

theorem takeTokens_zero : takeTokens tpb blocks 0 = [] := by
  have hzero : divUp 0 tpb = 0 := Nat.le_zero.1 ((divUp_le_iff hpos).2 (Nat.zero_le _))
  rw [takeTokens, hzero]
  rfl

theorem getElem?_takeTokens (j : Nat) :
    (takeTokens tpb blocks n)[j]? =
      if j * tpb < n then blocks[j]?.map fun block => (block, min tpb (n - j * tpb))
      else none := by
  rw [takeTokens, getElem?_mapIdx, getElem?_take]
  by_cases hj : j * tpb < n
  · rw [if_pos ((lt_divUp_iff hpos).2 hj), if_pos hj]
  · rw [if_neg fun h => hj ((lt_divUp_iff hpos).1 h), if_neg hj]
    rfl

theorem getElem?_takeTokens_of_le {j : Nat} (hj : j * tpb + tpb ≤ n) :
    (takeTokens tpb blocks n)[j]? = blocks[j]?.map fun block => (block, tpb) := by
  rw [getElem?_takeTokens hpos, if_pos (by omega)]
  rw [min_eq_left (by omega)]

theorem take_takeTokens {i : Nat} (hi : i * tpb ≤ n) :
    (takeTokens tpb blocks n).take i = takeTokens tpb blocks (i * tpb) := by
  apply ext_getElem?
  intro j
  rw [getElem?_take]
  by_cases hj : j < i
  · have hstep := add_le_mul_of_lt hj tpb
    rw [if_pos hj, getElem?_takeTokens_of_le hpos (hstep.trans hi), getElem?_takeTokens_of_le hpos hstep]
  · have hblock : i * tpb ≤ j * tpb := Nat.mul_le_mul_right _ (not_lt.1 hj)
    rw [if_neg hj, getElem?_takeTokens hpos, if_neg (by omega)]

theorem take_append_takeTokens {i c : Nat} {block : BlockId}
    (hi : i * tpb < n) (hblock : blocks[i]? = some block) (hc : 0 < c) (hle : c ≤ tpb) :
    (takeTokens tpb blocks n).take i ++ [(block, c)] = takeTokens tpb blocks (i * tpb + c) := by
  have hlen : (takeTokens tpb blocks (i * tpb)).length = i := by
    rw [length_takeTokens, divUp_mul hpos]
    rw [divUp_mul hpos]
    exact (List.getElem?_eq_some_iff.1 hblock).1.le
  rw [take_takeTokens hpos hi.le]
  apply ext_getElem?
  intro j
  rcases lt_trichotomy j i with hj | rfl | hj
  · have hstep := add_le_mul_of_lt hj tpb
    rw [getElem?_append_left (by omega), getElem?_takeTokens_of_le hpos hstep, getElem?_takeTokens_of_le hpos (by omega)]
  · rw [getElem?_append_right hlen.le, hlen, Nat.sub_self, getElem?_takeTokens hpos, if_pos (by omega), hblock]
    show some (block, c) = _
    rw [map_some, Nat.min_eq_right (by omega), Nat.add_sub_cancel_left]
  · have hstep := add_le_mul_of_lt hj tpb
    rw [getElem?_eq_none (by simp; omega), getElem?_takeTokens hpos, if_neg (by omega)]

theorem numMatchedTokens_takeTokens (hn : n ≤ blocks.length * tpb) :
    numMatchedTokens tpb (takeTokens tpb blocks n) = n := by
  have hlen := length_takeTokens ((divUp_le_iff hpos).2 hn)
  rw [numMatchedTokens, getLast?_eq_getElem?, hlen]
  cases hdiv : divUp n tpb with
  | zero =>
    have hzero : n = 0 := by simpa using (divUp_le_iff hpos).1 hdiv.le
    rw [hzero, takeTokens_zero hpos]
    rfl
  | succ i =>
    have hlt : i * tpb < n := (lt_divUp_iff hpos).1 (hdiv ▸ Nat.lt_succ_self i)
    have hle : n ≤ i * tpb + tpb := by
      rw [← Nat.succ_mul]
      exact (divUp_le_iff hpos).1 hdiv.le
    have hi : i < blocks.length := by
      have := (divUp_le_iff hpos).2 hn
      omega
    rw [Nat.succ_sub_one, getElem?_takeTokens hpos, if_pos hlt, getElem?_eq_getElem hi]
    show tpb * i + min tpb (n - i * tpb) = n
    rw [mul_comm]
    omega

end Prefix

/-! ### The longest reusable prefix -/

section Reusable

variable {tpb : Nat} {lcs : List LifeCycle} {cov : LifeCycleId → BlockId → Nat} {blocks : List BlockId} {n : Nat}

/-- The SSM snapshot in the block where the first `n` tokens end is taken right there. -/
def SnapshotAt (tokensPerBlock : Nat) (coverage : BlockId → Nat) (blocks : List BlockId) (n : Nat) : Prop :=
  ∀ i block, i * tokensPerBlock < n → n ≤ i * tokensPerBlock + tokensPerBlock → blocks[i]? = some block →
    coverage block = n - i * tokensPerBlock

/-- Every page that attention needs after the first `n` tokens covers what they use of its block. -/
def PagesCover (tokensPerBlock : Nat) (lc : AttnLifeCycle) (coverage : BlockId → Nat) (blocks : List BlockId)
    (n : Nat) : Prop :=
  ∀ j block, j * tokensPerBlock < n → blocks[j]? = some block → j ∉ lc.getStaleRange n tokensPerBlock →
    min tokensPerBlock (n - j * tokensPerBlock) ≤ coverage block

/-- The first `n` tokens of a path can be reused. -/
structure Reusable (tokensPerBlock : Nat) (lifeCycles : List LifeCycle) (coverage : LifeCycleId → BlockId → Nat)
    (blocks : List BlockId) (n : Nat) : Prop where
  ssm : ∀ id, ssmLifeCycleId lifeCycles = some id → SnapshotAt tokensPerBlock (coverage id) blocks n
  attn : ∀ id lc, (id, lc) ∈ attentionLifeCycles lifeCycles → PagesCover tokensPerBlock lc (coverage id) blocks n

variable {i j bound : Nat} {stale : HalfOpenRange}

omit [DecidableEq κ] [DecidableEq τ]

theorem mem_requiredPositions {length : Nat} (hbeg : stale.beg ≤ length) :
    j ∈ List.range stale.beg ++ List.range' stale.stop (length - stale.stop) ↔ j < length ∧ (j < stale.beg ∨ stale.stop ≤ j) := by
  rw [mem_append, mem_range, mem_range'_1]
  omega

theorem getStaleRange_beg_le (lc : AttnLifeCycle) (n tpb : Nat) : (lc.getStaleRange n tpb).beg ≤ divUp n tpb := by
  unfold AttnLifeCycle.getStaleRange
  cases lc.windowSize <;> exact min_le_left _ _

theorem not_mem_stale_iff : j ∉ stale ↔ j < stale.beg ∨ stale.stop ≤ j := by
  rw [HalfOpenRange.mem_iff]
  omega

theorem reusable_zero : Reusable tpb lcs cov blocks 0 where
  ssm := fun _ _ _ _ hi => absurd hi (Nat.not_lt_zero _)
  attn := fun _ _ _ _ _ hj => absurd hj (Nat.not_lt_zero _)

section Bounded

variable (hpos : 0 < tpb) (hn : n ≤ blocks.length * tpb)

include hpos hn

theorem ssmTruncate_spec (cov : LifeCycleId → BlockId → Nat) (ssm : LifeCycleId)
    (hi : i ≤ divUp n tpb) :
    ∃ n' ≤ n, ssmTruncate cov ssm (takeTokens tpb blocks n) i = takeTokens tpb blocks n' ∧
      SnapshotAt tpb (cov ssm) blocks n' ∧
      ∀ m, n' < m → m ≤ n → m ≤ i * tpb → ¬ SnapshotAt tpb (cov ssm) blocks m := by
  induction i with
  | zero =>
    refine ⟨0, Nat.zero_le n, (takeTokens_zero hpos).symm, fun i block hlt => by omega, fun m hm _ hle => by omega⟩
  | succ i ih =>
    have hlt : i * tpb < n := (lt_divUp_iff hpos).1 hi
    have hlen : i < blocks.length := by
      have := (divUp_le_iff hpos).2 hn
      omega
    obtain ⟨block, hblock⟩ : ∃ block, blocks[i]? = some block := ⟨_, getElem?_eq_getElem hlen⟩
    have hget : (takeTokens tpb blocks n)[i]? = some (block, min tpb (n - i * tpb)) := by
      rw [getElem?_takeTokens hpos, if_pos hlt, hblock, map_some]
    rw [ssmTruncate, hget]
    dsimp only
    rw [Nat.succ_mul]
    split
    · rename_i hcov
      refine ⟨i * tpb + cov ssm block, by omega,
        take_append_takeTokens hpos hlt hblock hcov.1 (by omega), ?_, fun m hm hmn hle hsnap => ?_⟩
      · intro k block' hk hk' hblock'
        obtain rfl : k = i := by
          rcases lt_trichotomy k i with h | h | h
          · have := add_le_mul_of_lt h tpb
            omega
          · exact h
          · have := add_le_mul_of_lt h tpb
            omega
        rw [hblock] at hblock'
        cases hblock'
        omega
      · have := hsnap i block (by omega) hle hblock
        omega
    · obtain ⟨n', hle', heq, hsnap', hnone⟩ := ih (Nat.le_of_succ_le hi)
      refine ⟨n', hle', heq, hsnap', fun m hm hmn hle hsnap => ?_⟩
      by_cases hmi : m ≤ i * tpb
      · exact hnone m hm hmn hmi hsnap
      · have := hsnap i block (by omega) hle hblock
        omega

theorem pagesCover_of_attnTruncate_eq_none
    (h : attnTruncate tpb lcs cov (takeTokens tpb blocks n) = none)
    (id : LifeCycleId) (lc : AttnLifeCycle) (hmem : (id, lc) ∈ attentionLifeCycles lcs) :
    PagesCover tpb lc (cov id) blocks n := by
  intro j block hj hblock hneeded
  have h := findSome?_eq_none_iff.1 h (id, lc) hmem
  rw [numMatchedTokens_takeTokens hpos hn, length_takeTokens ((divUp_le_iff hpos).2 hn)] at h
  have hcut := findSome?_eq_none_iff.1 h j ((mem_requiredPositions (getStaleRange_beg_le lc n tpb)).2
      ⟨(lt_divUp_iff hpos).2 hj, not_mem_stale_iff.1 hneeded⟩)
  rw [cutAtShortPage, getElem?_takeTokens hpos, if_pos hj, hblock, map_some, bind_some] at hcut
  dsimp only at hcut
  split at hcut
  · assumption
  · split at hcut <;> cases hcut

/-- A cut loses no reusable prefix: the page that asks for it is needed for every longer prefix too. -/
theorem attnTruncate_eq_some {shorter : Matched}
    (h : attnTruncate tpb lcs cov (takeTokens tpb blocks n) = some shorter) :
    ∃ n' < n, shorter = takeTokens tpb blocks n' ∧ ∃ id lc, (id, lc) ∈ attentionLifeCycles lcs ∧
      ∀ m, n' < m → m ≤ n → ¬ PagesCover tpb lc (cov id) blocks m := by
  obtain ⟨⟨id, lc⟩, hmem, h⟩ := exists_of_findSome?_eq_some h
  rw [numMatchedTokens_takeTokens hpos hn, length_takeTokens ((divUp_le_iff hpos).2 hn)] at h
  obtain ⟨j, hj, hcut⟩ := exists_of_findSome?_eq_some h
  obtain ⟨hj, hneeded⟩ := (mem_requiredPositions (getStaleRange_beg_le lc n tpb)).1 hj
  rw [lt_divUp_iff hpos] at hj
  have hneeded := not_mem_stale_iff.2 hneeded
  rw [cutAtShortPage, getElem?_takeTokens hpos, if_pos hj] at hcut
  obtain ⟨⟨block, numMatched⟩, hblock, hcut⟩ := bind_eq_some_iff.1 hcut
  obtain ⟨block', hblock', heq⟩ := map_eq_some_iff.1 hblock
  cases heq
  dsimp only at hcut
  split at hcut
  · cases hcut
  refine ⟨j * tpb + cov id block, by omega, ?_, id, lc, hmem, fun m hm hmn hcover => ?_⟩
  · split at hcut
    · rename_i hcov
      cases hcut
      exact take_append_takeTokens hpos hj hblock' hcov (by omega)
    · rename_i hcov
      cases hcut
      rw [Nat.eq_zero_of_not_pos hcov]
      exact take_takeTokens hpos hj.le
  · have hjm : j * tpb < m := by omega
    have := hcover j block hjm hblock' (AttnLifeCycle.not_mem_getStaleRange_of_le hpos hjm hmn hneeded)
    omega

theorem takeTokens_eq_nil_iff : takeTokens tpb blocks n = [] ↔ n = 0 := by
  rw [← length_eq_zero_iff, length_takeTokens ((divUp_le_iff hpos).2 hn), ← Nat.le_zero, divUp_le_iff hpos,
    Nat.zero_mul, Nat.le_zero]

theorem ssmStep_spec (lcs : List LifeCycle) (cov : LifeCycleId → BlockId → Nat) :
    ∃ n' ≤ n, (match ssmLifeCycleId lcs with
        | some ssm => ssmTruncate cov ssm (takeTokens tpb blocks n) (divUp n tpb)
        | none => takeTokens tpb blocks n) = takeTokens tpb blocks n' ∧
      (∀ id, ssmLifeCycleId lcs = some id → SnapshotAt tpb (cov id) blocks n') ∧
      ∀ m, n' < m → m ≤ n → ¬ Reusable tpb lcs cov blocks m := by
  cases hssm : ssmLifeCycleId lcs with
  | none => exact ⟨n, le_rfl, rfl, nofun, fun m hm hmn => by omega⟩
  | some ssm =>
    obtain ⟨n', hle, heq, hsnap, hnone⟩ := ssmTruncate_spec hpos hn cov ssm le_rfl
    refine ⟨n', hle, heq, fun id h => some.inj h ▸ hsnap, fun m hm hmn hreuse => ?_⟩
    exact hnone m hm hmn (hmn.trans (divUp_mul_ge n hpos)) (hreuse.ssm ssm hssm)

/-- The pruning loop ends, with the longest reusable prefix of the match. -/
theorem pruneLoop_spec (lcs : List LifeCycle) (cov : LifeCycleId → BlockId → Nat)
    {fuel : Nat} (hfuel : n < fuel) :
    ∃ n' ≤ n, pruneLoop tpb lcs cov fuel (takeTokens tpb blocks n) =
        some (takeTokens tpb blocks n') ∧
      Reusable tpb lcs cov blocks n' ∧
      ∀ m, n' < m → m ≤ n → ¬ Reusable tpb lcs cov blocks m := by
  induction fuel generalizing n with
  | zero => omega
  | succ fuel ih =>
    cases hmatched : takeTokens tpb blocks n with
    | nil =>
      have hzero := (takeTokens_eq_nil_iff hpos hn).1 hmatched
      subst hzero
      exact ⟨0, le_rfl, by rw [hmatched]; rfl, reusable_zero, fun m hm hle => by omega⟩
    | cons entry rest =>
      have hlen : rest.length + 1 = divUp n tpb := by
        rw [← length_takeTokens ((divUp_le_iff hpos).2 hn), hmatched]
        rfl
      obtain ⟨n₁, hle₁, heq₁, hsnap₁, hnone₁⟩ := ssmStep_spec hpos hn lcs cov
      rw [hmatched, ← hlen] at heq₁
      rw [pruneLoop, heq₁]
      split
      · rename_i hnil
        have hzero := (takeTokens_eq_nil_iff hpos (hle₁.trans hn)).1 hnil
        subst hzero
        exact ⟨0, Nat.zero_le n, by rw [hnil], reusable_zero, hnone₁⟩
      · split
        · rename_i hattn
          exact ⟨n₁, hle₁, rfl, ⟨hsnap₁, pagesCover_of_attnTruncate_eq_none hpos (hle₁.trans hn) hattn⟩, hnone₁⟩
        rename_i hattn
        obtain ⟨n₂, hlt₂, rfl, id, lc, hmem, hnone₂⟩ := attnTruncate_eq_some hpos (hle₁.trans hn) hattn
        obtain ⟨n', hle', heq', hreuse, hnone'⟩ := ih (hlt₂.le.trans (hle₁.trans hn)) (by omega)
        refine ⟨n', by omega, heq', hreuse, fun m hm hmn hm' => ?_⟩
        -- a longer reusable prefix would have survived all three cuts
        rcases lt_or_ge n₁ m with h₁ | h₁
        · exact hnone₁ m h₁ hmn hm'
        · rcases lt_or_ge n₂ m with h₂ | h₂
          · exact hnone₂ m h₂ h₁ (hm'.attn id lc hmem)
          · exact hnone' m hm h₂ hm'

end Bounded

variable {coverage' : LifeCycleId → BlockId → Nat} {matched : Matched}

theorem Reusable.congr {blocks' : List BlockId} (h : Reusable tpb lcs cov blocks n)
    (hblocks : ∀ j, j * tpb < n → blocks'[j]? = blocks[j]?)
    (hcoverage : ∀ j block, j * tpb < n → blocks[j]? = some block → ∀ id, coverage' id block = cov id block) :
    Reusable tpb lcs coverage' blocks' n where
  ssm := by
    intro id hid i block hlt hle hblock
    rw [hblocks i hlt] at hblock
    rw [hcoverage i block hlt hblock]
    exact h.ssm id hid i block hlt hle hblock
  attn := by
    intro id lc hmem j block hlt hblock hneeded
    rw [hblocks j hlt] at hblock
    rw [hcoverage j block hlt hblock]
    exact h.attn id lc hmem j block hlt hblock hneeded

theorem Reusable.append_congr {front tail : List BlockId}
    (h : Reusable tpb lcs cov (front ++ tail) n) (hn : n ≤ front.length * tpb)
    (hcoverage : ∀ block ∈ front, ∀ id, coverage' id block = cov id block) (tail' : List BlockId) :
    Reusable tpb lcs coverage' (front ++ tail') n := by
  have hfront : ∀ j, j * tpb < n → j < front.length := fun j hj => Nat.lt_of_mul_lt_mul_right (hj.trans_le hn)
  apply h.congr
  · intro j hj
    rw [getElem?_append_left (hfront j hj), getElem?_append_left (hfront j hj)]
  · intro j block hj hblock
    rw [getElem?_append_left (hfront j hj)] at hblock
    exact hcoverage block (mem_of_getElem? hblock)

/-- `n` is the greatest reusable number of tokens up to `bound`. -/
structure Longest (tokensPerBlock : Nat) (lifeCycles : List LifeCycle) (coverage : LifeCycleId → BlockId → Nat)
    (blocks : List BlockId) (bound n : Nat) : Prop where
  le : n ≤ bound
  reusable : Reusable tokensPerBlock lifeCycles coverage blocks n
  greatest : ∀ m, n < m → m ≤ bound → ¬ Reusable tokensPerBlock lifeCycles coverage blocks m

theorem Longest.le_of_reusable {m : Nat} (h : Longest tpb lcs cov blocks bound n)
    (hm : m ≤ bound) (hreuse : Reusable tpb lcs cov blocks m) : m ≤ n :=
  not_lt.1 fun hlt => h.greatest m hlt hm hreuse

theorem Longest.eq_of_coverage {n' : Nat} (h : Longest tpb lcs cov blocks bound n)
    (h' : Longest tpb lcs coverage' blocks bound n')
    (hcoverage : ∀ block ∈ blocks, ∀ id, coverage' id block = cov id block) : n' = n := by
  apply le_antisymm
  · exact h.le_of_reusable h'.le (h'.reusable.congr (fun _ _ => rfl)
      fun _ block _ hblock id => (hcoverage block (mem_of_getElem? hblock) id).symm)
  · exact h'.le_of_reusable h.le (h.reusable.congr (fun _ _ => rfl)
      fun _ block _ hblock => hcoverage block (mem_of_getElem? hblock))

/-- Matched blocks are whole, except perhaps the last. -/
structure Aligned (tokensPerBlock : Nat) (matched : Matched) : Prop where
  whole : ∀ entry ∈ matched.dropLast, entry.2 = tokensPerBlock
  pos : ∀ entry ∈ matched, 0 < entry.2 ∧ entry.2 ≤ tokensPerBlock

theorem Aligned.append_singleton {entry : BlockId × Nat} (hwhole : ∀ entry ∈ matched, entry.2 = tpb)
    (hpos : 0 < entry.2) (hle : entry.2 ≤ tpb) : Aligned tpb (matched ++ [entry]) where
  whole := by
    rw [dropLast_concat]
    exact hwhole
  pos := by
    refine forall_mem_append.2 ⟨fun x hx => ?_, forall_mem_singleton.2 ⟨hpos, hle⟩⟩
    rw [hwhole x hx]
    exact ⟨hpos.trans_le hle, le_rfl⟩

theorem Aligned.of_whole (htokens : 0 < tpb) (hwhole : ∀ entry ∈ matched, entry.2 = tpb) : Aligned tpb matched where
  whole := fun entry hentry => hwhole entry (dropLast_subset matched hentry)
  pos := by
    intro entry hentry
    rw [hwhole entry hentry]
    exact ⟨htokens, le_rfl⟩

theorem numMatchedTokens_of_whole (hwhole : ∀ entry ∈ matched, entry.2 = tpb) :
    numMatchedTokens tpb matched = matched.length * tpb := by
  rcases eq_nil_or_concat matched with rfl | ⟨front, last, rfl⟩
  · rw [length_nil, Nat.zero_mul]
    rfl
  · rw [concat_eq_append] at hwhole ⊢
    rw [numMatchedTokens, getLast?_concat, length_append, length_singleton, Nat.add_sub_cancel]
    dsimp only
    rw [hwhole last (by simp), Nat.succ_mul, mul_comm]

theorem length_mul_le_numMatchedTokens {front : Matched} (hwhole : ∀ entry ∈ front, entry.2 = tpb)
    (tail : Matched) : front.length * tpb ≤ numMatchedTokens tpb (front ++ tail) := by
  cases tail with
  | nil =>
    rw [append_nil]
    exact (numMatchedTokens_of_whole hwhole).ge
  | cons entry tail =>
    rw [numMatchedTokens, getLast?_eq_some_getLast (by simp), length_append, length_cons, mul_comm]
    dsimp only
    have := Nat.mul_le_mul_left tpb (show front.length ≤ front.length + (tail.length + 1) - 1 by omega)
    omega

theorem numMatchedTokens_append_singleton (matched : Matched) (entry : BlockId × Nat) :
    numMatchedTokens tpb (matched ++ [entry]) = matched.length * tpb + entry.2 := by
  rw [numMatchedTokens, getLast?_concat, length_append, mul_comm]
  rfl

theorem Aligned.eq_takeTokens (h : 0 < tpb) (haligned : Aligned tpb matched) :
    matched = takeTokens tpb (matched.map fst) (numMatchedTokens tpb matched) ∧
      numMatchedTokens tpb matched ≤ (matched.map fst).length * tpb := by
  rcases eq_nil_or_concat matched with rfl | ⟨front, last, rfl⟩
  · exact ⟨(takeTokens_zero h).symm, Nat.zero_le _⟩
  obtain ⟨hpos, hle⟩ := haligned.pos last (by simp)
  have hwhole := haligned.whole
  rw [concat_eq_append] at hwhole ⊢
  rw [dropLast_concat] at hwhole
  rw [numMatchedTokens_append_singleton]
  constructor
  · apply ext_getElem?
    intro j
    rcases lt_trichotomy j front.length with hj | rfl | hj
    · have hstep := add_le_mul_of_lt hj tpb
      rw [getElem?_takeTokens_of_le h (by omega), getElem?_map, getElem?_append_left hj,
        getElem?_eq_getElem hj, map_some, map_some, ← hwhole _ (getElem_mem hj)]
    · rw [getElem?_takeTokens h, getElem?_map, if_pos (by omega), getElem?_concat_length,
        map_some, map_some, Nat.add_sub_cancel_left, Nat.min_eq_right hle]
    · have hstep := add_le_mul_of_lt hj tpb
      rw [getElem?_takeTokens h, if_neg (by omega), getElem?_eq_none (by simp; omega)]
  · rw [length_map, length_append, length_singleton, Nat.succ_mul]
    omega

theorem pruneMatch_spec (lcs : List LifeCycle) (cov : LifeCycleId → BlockId → Nat)
    (htokens : 0 < tpb) (haligned : Aligned tpb matched) :
    ∃ n, pruneMatch tpb lcs cov matched =
        some (takeTokens tpb (matched.map fst) n) ∧
      Longest tpb lcs cov (matched.map fst) (numMatchedTokens tpb matched) n := by
  obtain ⟨heq, hle⟩ := haligned.eq_takeTokens htokens
  obtain ⟨n, hn, hloop, hreuse, hgreatest⟩ := pruneLoop_spec htokens hle lcs cov (Nat.lt_succ_self _)
  refine ⟨n, ?_, hn, hreuse, hgreatest⟩
  rw [pruneMatch, if_pos haligned.whole]
  rw [← heq] at hloop
  exact hloop

/-- `_prune_match` returns the longest prefix of the path that can be reused. -/
theorem pruneMatch_longest (tokensPerBlock : Nat) (lifeCycles : List LifeCycle)
    (coverage : LifeCycleId → BlockId → Nat) (matched : Matched) (htokens : 0 < tokensPerBlock)
    (haligned : Aligned tokensPerBlock matched) :
    ∃ n, pruneMatch tokensPerBlock lifeCycles coverage matched =
        some (takeTokens tokensPerBlock (matched.map fst) n) ∧
      numMatchedTokens tokensPerBlock (takeTokens tokensPerBlock (matched.map fst) n) = n ∧
      Longest tokensPerBlock lifeCycles coverage (matched.map fst) (numMatchedTokens tokensPerBlock matched) n := by
  obtain ⟨n, hprune, hlongest⟩ := pruneMatch_spec lifeCycles coverage htokens haligned
  refine ⟨n, hprune, ?_, hlongest⟩
  apply numMatchedTokens_takeTokens htokens
  exact hlongest.le.trans (haligned.eq_takeTokens htokens).2

/-- The match is cut at the snapshot after three tokens, where the first block is out of the window. -/
theorem pruneMatch_longest_snapshot :
    ∃ n, pruneMatch 2 [.attn ⟨some 2, 0⟩, .ssm] (fun _ _ => 1) [(0, 2), (1, 2)] =
        some (takeTokens 2 [0, 1] n) ∧ numMatchedTokens 2 (takeTokens 2 [0, 1] n) = n ∧
      Longest 2 [.attn ⟨some 2, 0⟩, .ssm] (fun _ _ => 1) [0, 1] (numMatchedTokens 2 [(0, 2), (1, 2)]) n :=
  pruneMatch_longest 2 _ _ [(0, 2), (1, 2)] (by decide) ⟨by decide, by decide⟩

end Reusable

section Alignment

omit [DecidableEq κ] [DecidableEq τ]

/-- Token blocks are whole, except perhaps the last. -/
def KeysAligned (tokensPerBlock : Nat) : List (List τ × κ) → Prop
  | [] => True
  | (tokenBlock, _) :: rest =>
    0 < tokenBlock.length ∧ tokenBlock.length ≤ tokensPerBlock ∧
      (rest ≠ [] → tokenBlock.length = tokensPerBlock) ∧ KeysAligned tokensPerBlock rest

theorem blockKeysLoop_aligned (fuel : Nat) (key : κ) (tokens : List τ) :
    KeysAligned p.tokensPerBlock (blockKeysLoop p fuel key tokens) := by
  induction fuel generalizing key tokens with
  | zero => exact trivial
  | succ fuel ih =>
    unfold blockKeysLoop
    split
    · exact trivial
    rename_i token rest htake
    have hlen : (token :: rest).length = min p.tokensPerBlock tokens.length := by rw [← htake, length_take]
    refine ⟨Nat.succ_pos _, by omega, fun hmore => ?_, ih _ _⟩
    -- a further block starts after the whole of this one
    have hdrop : tokens.drop p.tokensPerBlock ≠ [] := by
      intro hnil
      apply hmore
      rw [hnil]
      cases fuel <;> simp [blockKeysLoop]
    have hpos := length_pos_of_ne_nil hdrop
    rw [length_drop] at hpos
    omega

variable [DecidableEq κ]

theorem descend_aligned {tpb : Nat} (htokens : 0 < tpb) (t : RadixTree κ τ) (q : ParentId)
    {keys : List (List τ × κ)} (hkeys : KeysAligned tpb keys) :
    Aligned tpb (t.descend q keys).1 ∧ ∀ block tokenBlock, (t.descend q keys).2 = some (block, tokenBlock) →
      (∀ entry ∈ (t.descend q keys).1, entry.2 = tpb) ∧ 0 < tokenBlock.length ∧ tokenBlock.length ≤ tpb := by
  induction keys generalizing q with
  | nil => exact ⟨.of_whole htokens nofun, nofun⟩
  | cons head rest ih =>
    obtain ⟨hpos, hle, hwhole, hrest⟩ := hkeys
    rw [descend]
    split
    · rename_i child hchild
      obtain ⟨haligned, hstop⟩ := ih (.block child) hrest
      dsimp only
      refine ⟨⟨?_, ?_⟩, fun block tokenBlock hb => ?_⟩
      · intro entry hentry
        cases hmatched : (t.descend (.block child) rest).1 with
        | nil =>
          rw [hmatched] at hentry
          cases hentry
        | cons first more =>
          rw [hmatched] at hentry
          rcases mem_cons.1 hentry with rfl | hentry
          · apply hwhole
            intro hnil
            rw [hnil] at hmatched
            cases hmatched
          · exact haligned.whole entry (hmatched ▸ hentry)
      · exact forall_mem_cons.2 ⟨⟨hpos, hle⟩, haligned.pos⟩
      · obtain ⟨hall, htb⟩ := hstop block tokenBlock hb
        refine ⟨fun entry hentry => ?_, htb⟩
        rcases mem_cons.1 hentry with rfl | hentry
        · apply hwhole
          intro hnil
          rw [hnil] at hb
          cases hb
        · exact hall entry hentry
    · refine ⟨.of_whole htokens nofun, fun block tokenBlock hb => ?_⟩
      cases hb
      exact ⟨nofun, hpos, hle⟩

variable [DecidableEq τ]

omit [DecidableEq κ] in
theorem partialMatchThisNode_le (as bs : List τ) : partialMatchThisNode as bs ≤ as.length := by
  induction as generalizing bs with
  | nil => cases bs <;> exact le_rfl
  | cons a as ih =>
    cases bs with
    | nil => exact Nat.zero_le _
    | cons b bs =>
      rw [partialMatchThisNode]
      split
      · exact Nat.succ_le_succ (ih bs)
      · exact Nat.zero_le _

omit [DecidableEq κ] in
theorem bestPartialMatch_mem {t : RadixTree κ τ} {tokens : List τ} {children : List BlockId} {best : BlockId}
    {matchLen : Nat} (hbest : t.bestPartialMatch tokens children = (some best, matchLen)) :
    best ∈ children ∧ 0 < matchLen ∧ matchLen ≤ tokens.length := by
  have hfold : ∀ (children : List BlockId) (acc : Option BlockId × Nat),
      children.foldl (t.betterPartialMatch tokens) acc = (some best, matchLen) →
      acc = (some best, matchLen) ∨ best ∈ children ∧ 0 < matchLen ∧ matchLen ≤ tokens.length := by
    intro children
    induction children with
    | nil => exact fun acc h => .inl h
    | cons b children ih =>
      intro acc h
      rcases ih _ h with hacc | ⟨hmem, hlen⟩
      · unfold betterPartialMatch at hacc
        dsimp only at hacc
        split at hacc
        · rename_i hlt
          cases hacc
          exact .inr ⟨(.head _), Nat.zero_lt_of_lt hlt, partialMatchThisNode_le _ _⟩
        · exact .inl hacc
      · exact .inr ⟨.tail _ hmem, hlen⟩
  rcases hfold children (none, 0) hbest with h | h
  · cases h
  · exact h

omit [DecidableEq κ] in
theorem partialTail_cases (t : RadixTree κ τ) (enablePartialMatch : Bool) (stop : Option (ParentId × List τ)) :
    t.partialTail enablePartialMatch stop = [] ∨ enablePartialMatch = true ∧ ∃ block tokenBlock next best matchLen,
      stop = some (block, tokenBlock) ∧ t.nextOf block = some next ∧ best ∈ next.values ∧ 0 < matchLen ∧
        matchLen ≤ tokenBlock.length ∧ t.partialTail enablePartialMatch stop = [(best, matchLen)] := by
  cases stop with
  | none => exact .inl rfl
  | some stop =>
    obtain ⟨block, tokenBlock⟩ := stop
    cases enablePartialMatch with
    | false => exact .inl rfl
    | true =>
      rw [partialTail, if_pos rfl]
      cases hnext : t.nextOf block with
      | none => exact .inl rfl
      | some next =>
        rw [map_some, getD_some]
        cases hbest : t.findBestPartialMatchInNextNodes next tokenBlock with
        | mk best matchLen =>
          cases best with
          | none => exact .inl rfl
          | some best =>
            rw [findBestPartialMatchInNextNodes] at hbest
            split at hbest
            · cases hbest
            · obtain ⟨hmem, hpos, hle⟩ := bestPartialMatch_mem hbest
              exact .inr ⟨rfl, block, tokenBlock, next, best, matchLen, rfl, hnext, hmem, hpos, hle, rfl⟩

theorem matchTokenPath_aligned : Aligned p.tokensPerBlock (t.matchTokenPath p scope tokens enablePartialMatch) := by
  unfold matchTokenPath
  split
  · exact .of_whole p.tokensPerBlock_pos nofun
  rename_i root hroot
  obtain ⟨haligned, hstop⟩ := descend_aligned p.tokensPerBlock_pos t (.root root)
    (blockKeysLoop_aligned p tokens.length (p.rootKey scope) tokens)
  dsimp only
  rcases t.partialTail_cases enablePartialMatch (t.descend (.root root) (blockKeys p scope tokens)).2 with
    hnil | ⟨-, block, tokenBlock, next, best, matchLen, hbroke, -, -, hpos, hle, htail⟩
  · rw [hnil, append_nil]
    exact haligned
  · obtain ⟨hwhole, -, hshort⟩ := hstop block tokenBlock hbroke
    rw [htail]
    exact .append_singleton hwhole hpos (hle.trans hshort)

/-- The number of tokens that `match` reports is the greatest reusable one on the path of the tokens. -/
theorem reuseMatch_spec :
    ∃ result, t.reuseMatch p scope tokens enablePartialMatch = some result ∧
      Longest p.tokensPerBlock p.lifeCycles (fun lc id => t.pageCoverage id lc)
        ((t.matchTokenPath p scope tokens enablePartialMatch).map fst)
        (numMatchedTokens p.tokensPerBlock (t.matchTokenPath p scope tokens enablePartialMatch)) result.numTokens := by
  have haligned := t.matchTokenPath_aligned p scope tokens enablePartialMatch
  obtain ⟨n, hprune, hlongest⟩ := pruneMatch_spec p.lifeCycles (fun lc id => t.pageCoverage id lc) p.tokensPerBlock_pos haligned
  refine ⟨_, by rw [reuseMatch, hprune, map_some], ?_⟩
  rw [numMatchedTokens_takeTokens p.tokensPerBlock_pos (hlongest.le.trans (haligned.eq_takeTokens p.tokensPerBlock_pos).2)]
  exact hlongest

end Alignment

end RadixTree

end TrtLlm.KvCache
