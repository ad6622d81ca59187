import Mathlib
import TrtLlm.Kernels.DynamicTree

/-!
# Greedy verification of draft trees

`verifyDynamicTreeGreedyPackedKernel` and `tree_spec_greedy_verify.comp` go down the tree of a row along the draft
tokens that the target model predicts. Siblings carry distinct tokens, so there is one such way down, and the kernels
take it as far as the output has room.
-/

namespace TrtLlm.Kernels

open Function List

/-- What the kernels read; `retrievePacked` has the index, the first child and the next sibling of every node. -/
structure VerifyArgs where
  candidates : ℕ → ℤ
  retrievePacked : ℕ → ℤ
  targetPredict : ℕ → ℤ
  numSpeculativeTokens : ℕ
  numDraftTokens : ℕ

structure Acceptance where
  acceptIndex : ℕ → ℤ
  acceptTokenNum : ℕ → ℤ
  acceptToken : ℕ → ℤ

def fill (buffer : ℕ → ℤ) (base : ℕ) (values : List ℤ) (i : ℕ) : ℤ :=
  if base ≤ i then values[i - base]?.getD (buffer i) else buffer i

theorem fill_nil (buffer : ℕ → ℤ) (base : ℕ) : fill buffer base [] = buffer := by
  funext i
  simp [fill]

theorem fill_update (buffer : ℕ → ℤ) (base : ℕ) (v : ℤ) (values : List ℤ) :
    fill (update buffer base v) (base + 1) values = fill buffer base (v :: values) := by
  grind [fill]

namespace VerifyArgs

variable (a : VerifyArgs) (bx : ℕ)

def row (i : ℕ) : ℤ := a.retrievePacked (bx * a.numDraftTokens * 3 + i)

def candidate (n : ℕ) : ℤ := a.candidates (bx * a.numDraftTokens + n)

def target (n : ℕ) : ℤ := a.targetPredict (bx * a.numDraftTokens + n)

def inRange (curIndex : ℤ) : Bool := 0 ≤ curIndex ∧ curIndex.toNat < a.numDraftTokens

/-- The `while` loop over siblings: where it stops, if it does so within `fuel` rounds. -/
def scanSiblings (targetTokenId : ℤ) : ℕ → ℤ → Option ℤ
  | 0, _ => none
  | fuel + 1, curIndex =>
    if a.inRange curIndex ∧ a.candidate bx curIndex.toNat ≠ targetTokenId then
      scanSiblings targetTokenId fuel (a.row bx (curIndex.toNat * 3 + 2))
    else some curIndex

def accept (numAcceptedTokens : ℕ) (draftLocalIdx : ℤ) (out : Acceptance) : Acceptance :=
  let i := bx * a.numSpeculativeTokens + numAcceptedTokens
  { out with
    acceptIndex := update out.acceptIndex i draftLocalIdx
    acceptToken := update out.acceptToken i (a.target bx draftLocalIdx.toNat) }

def finish (numAcceptedTokens : ℕ) (out : Acceptance) : Acceptance :=
  { out with acceptTokenNum := update out.acceptTokenNum bx numAcceptedTokens }

/-- The `for` loop over the depths, with `rounds` of them left. -/
def acceptLoop (fuel : ℕ) : (rounds numAcceptedTokens : ℕ) → (lastAcceptedLocalIdx curIndex : ℤ) → Acceptance →
    Option Acceptance
  | 0, numAcceptedTokens, _, _, out => some (finish bx numAcceptedTokens out)
  | rounds + 1, numAcceptedTokens, lastAcceptedLocalIdx, curIndex, out => do
    let targetTokenId := a.target bx lastAcceptedLocalIdx.toNat
    let curIndex ← a.scanSiblings bx targetTokenId fuel (a.row bx (curIndex.toNat * 3 + 1))
    if a.inRange curIndex then
      let draftLocalIdx := a.row bx (curIndex.toNat * 3)
      acceptLoop fuel rounds (numAcceptedTokens + 1) draftLocalIdx curIndex
        (a.accept bx (numAcceptedTokens + 1) draftLocalIdx out)
    else some (finish bx numAcceptedTokens out)

def verifyRow (valid : Bool) (fuel : ℕ) (out : Acceptance) : Option Acceptance :=
  if valid then
    a.acceptLoop bx fuel (a.numSpeculativeTokens - 1) 0 (a.row bx 0) 0 (a.accept bx 0 (a.row bx 0) out)
  else some (finish bx 0 (a.accept bx 0 0 out))

/-- `treeValid` may be a null pointer. -/
def verifyDynamicTreeGreedyPackedKernel (treeValid : Option (ℕ → Bool)) : ℕ → Acceptance → Option Acceptance :=
  a.verifyRow bx (treeValid.all (· bx))

/-- `tree_spec_greedy_verify.comp`. -/
def treeSpecGreedyVerifyMain (treeValid : ℕ → ℤ) : ℕ → Acceptance → Option Acceptance := a.verifyRow bx (treeValid bx ≠ 0)

/-- The pointers list the children of every node, and siblings carry distinct draft tokens: in particular, the row may
be a tree with root 0. -/
structure ChildLists (children : ℕ → List ℕ) : Prop where
  root : 0 < a.numDraftTokens
  index : ∀ n < a.numDraftTokens, a.row bx (n * 3) = n
  linked : ∀ p < a.numDraftTokens, Linked (fun n => a.row bx (n * 3 + 2)) (a.row bx (p * 3 + 1)) (children p)
  lt : ∀ p < a.numDraftTokens, ∀ n ∈ children p, n < a.numDraftTokens
  nodup : ∀ p < a.numDraftTokens, (children p).Nodup
  distinct : ∀ p < a.numDraftTokens, ∀ m ∈ children p, ∀ n ∈ children p, a.candidate bx m = a.candidate bx n → m = n

variable (children : ℕ → List ℕ)

/-- From `p` the path goes down to children whose draft tokens are predicted. -/
def MatchPath : ℕ → List ℕ → Prop
  | _, [] => True
  | p, n :: path => n ∈ children p ∧ a.candidate bx n = a.target bx p ∧ MatchPath n path

/-- The longest such path with at most `room` nodes: all others are beginnings of it. -/
structure LongestPath (room p : ℕ) (path : List ℕ) : Prop where
  isPath : a.MatchPath bx children p path
  length_le : path.length ≤ room
  longest : ∀ other, a.MatchPath bx children p other → other.length ≤ room → other <+: path

/-- The buffers with the nodes of `path` accepted from entry `i` of the row on, and `n` tokens counted. -/
def acceptAll (i n : ℕ) (path : List ℕ) (out : Acceptance) : Acceptance where
  acceptIndex := fill out.acceptIndex (bx * a.numSpeculativeTokens + i) (path.map Nat.cast)
  acceptTokenNum := update out.acceptTokenNum bx n
  acceptToken := fill out.acceptToken (bx * a.numSpeculativeTokens + i) (path.map (a.target bx))

variable {a bx children} {p n room fuel : ℕ} {path : List ℕ} {out : Acceptance}

theorem acceptAll_accept (i k : ℕ) :
    a.acceptAll bx (i + 1) k path (a.accept bx i n out) = a.acceptAll bx i k (n :: path) out := by
  simp only [acceptAll, accept, Int.toNat_natCast, map_cons, ← add_assoc, fill_update]

theorem acceptAll_nil (i k : ℕ) : a.acceptAll bx i k [] out = finish bx k out := by
  simp only [acceptAll, finish, map_nil, fill_nil]

theorem scanSiblings_eq {l : List ℕ} {v : ℤ} (targetTokenId : ℤ)
    (hlinked : Linked (fun n => a.row bx (n * 3 + 2)) v l) (hlt : ∀ n ∈ l, n < a.numDraftTokens)
    (h : l.length < fuel) : a.scanSiblings bx targetTokenId fuel v =
      some (((l.find? fun n => a.candidate bx n = targetTokenId).map Nat.cast).getD (-1)) := by
  induction l generalizing v fuel with
  | nil =>
    obtain ⟨fuel, rfl⟩ := Nat.exists_eq_add_of_lt h
    rw [show v = -1 from hlinked]
    rfl
  | cons n l ih =>
    obtain ⟨rfl, hrest⟩ := hlinked
    obtain ⟨hn, hlt⟩ := forall_mem_cons.1 hlt
    cases fuel with
    | zero => cases h
    | succ fuel =>
      rw [scanSiblings]
      by_cases htoken : a.candidate bx n = targetTokenId
      · rw [if_neg (fun hboth => hboth.2 htoken), find?_cons_of_pos (by simpa using htoken)]
        rfl
      · rw [if_pos ⟨by simp [inRange, hn], htoken⟩, find?_cons_of_neg (by simpa using htoken)]
        exact ih hrest hlt (Nat.lt_of_succ_lt_succ h)

variable (h : a.ChildLists bx children)

include h

theorem ChildLists.longestPath_cons (hp : p < a.numDraftTokens) (hn : n ∈ children p)
    (htoken : a.candidate bx n = a.target bx p) (hpath : a.LongestPath bx children room n path) :
    a.LongestPath bx children (room + 1) p (n :: path) where
  isPath := ⟨hn, htoken, hpath.isPath⟩
  length_le := Nat.succ_le_succ hpath.length_le
  longest := by
    intro other hother hlen
    cases other with
    | nil => exact nil_prefix
    | cons m other =>
      obtain rfl := h.distinct p hp m hother.1 n hn (hother.2.1.trans htoken.symm)
      exact (prefix_cons_inj m).2 (hpath.longest other hother.2.2 (Nat.le_of_succ_le_succ hlen))

/-- The loop accepts the longest path from node `p` on. -/
theorem ChildLists.acceptLoop_spec (room : ℕ) (hfuel : a.numDraftTokens < fuel) (hp : p < a.numDraftTokens) :
    ∃ path, a.LongestPath bx children room p path ∧
      ∀ k out, a.acceptLoop bx fuel room k p p out = some (a.acceptAll bx (k + 1) (k + path.length) path out) := by
  induction room generalizing p with
  | zero =>
    refine ⟨[], ⟨trivial, le_rfl, fun other _ hlen => ?_⟩, fun k out => by rw [acceptAll_nil]; rfl⟩
    exact (eq_nil_of_length_eq_zero (Nat.le_zero.1 hlen)).symm ▸ nil_prefix
  | succ room ih =>
    have hlen : (children p).length ≤ a.numDraftTokens := by
      simpa using ((h.nodup p hp).subperm fun n hn => mem_range.2 (h.lt p hp n hn)).length_le
    have hscan := scanSiblings_eq (a.target bx p) (h.linked p hp) (h.lt p hp) (hlen.trans_lt hfuel)
    cases hfind : (children p).find? fun n => a.candidate bx n = a.target bx p with
    | none =>
      refine ⟨[], ⟨trivial, Nat.zero_le _, fun other hother _ => ?_⟩, fun k out => ?_⟩
      · cases other with
        | nil => exact nil_prefix
        | cons n other => exact absurd hother.2.1 (by simpa using find?_eq_none.1 hfind n hother.1)
      · rw [acceptLoop, Int.toNat_natCast, hscan, hfind, acceptAll_nil]
        rfl
    | some n =>
      have hn := mem_of_find?_eq_some hfind
      obtain ⟨path, hpath, hrun⟩ := ih (h.lt p hp n hn)
      refine ⟨n :: path, h.longestPath_cons hp hn (by simpa using find?_some hfind) hpath, fun k out => ?_⟩
      have hrange : a.inRange n = true := by simp [inRange, h.lt p hp n hn]
      rw [acceptLoop, Int.toNat_natCast, hscan, hfind, Option.map_some, Option.getD_some, Option.bind_eq_bind,
        Option.bind_some, if_pos hrange, Int.toNat_natCast, h.index n (h.lt p hp n hn), hrun, acceptAll_accept,
        length_cons, add_right_comm, add_assoc]

/-- On a row that is not marked invalid, both kernels end and return the longest path of predicted draft tokens that
the output has room for. -/
theorem greedyVerify_longest (hroom : 1 ≤ a.numSpeculativeTokens) (treeValid : Option (ℕ → Bool))
    (hvalid : treeValid.all (· bx) = true) (treeValid' : ℕ → ℤ) (hvalid' : treeValid' bx ≠ 0)
    (hfuel : a.numDraftTokens < fuel) (out : Acceptance) :
    ∃ path, a.LongestPath bx children (a.numSpeculativeTokens - 1) 0 path ∧
      (0 :: path).length ≤ a.numSpeculativeTokens ∧
      a.verifyDynamicTreeGreedyPackedKernel bx treeValid fuel out = some (a.acceptAll bx 0 path.length (0 :: path) out) ∧
      a.treeSpecGreedyVerifyMain bx treeValid' fuel out = some (a.acceptAll bx 0 path.length (0 :: path) out) := by
  obtain ⟨path, hpath, hloop⟩ := h.acceptLoop_spec (a.numSpeculativeTokens - 1) hfuel h.root
  have hrun : a.verifyRow bx true fuel out = some (a.acceptAll bx 0 path.length (0 :: path) out) := by
    have hindex : a.row bx 0 = (0 : ℕ) := h.index 0 h.root
    rw [verifyRow, hindex, ← acceptAll_accept, ← Nat.zero_add path.length]
    exact hloop 0 _
  have hlen := hpath.length_le
  refine ⟨path, hpath, by rw [length_cons]; omega, ?_, ?_⟩
  · rw [verifyDynamicTreeGreedyPackedKernel, hvalid, hrun]
  · rw [treeSpecGreedyVerifyMain, decide_eq_true hvalid', hrun]

omit h

def pairRow : VerifyArgs := ⟨fun _ => 5, fun i => [0, 1, -1, 1, -1, -1].getD i 0, fun _ => 5, 2, 2⟩

def pairChildren (p : ℕ) : List ℕ := if p = 0 then [1] else []

theorem childLists_pairRow : pairRow.ChildLists 0 pairChildren where
  root := by decide
  index := by decide
  linked := fun p hp => by
    match p, hp with
    | 0, _ => exact ⟨rfl, rfl⟩
    | 1, _ => exact rfl
  lt := by decide
  nodup := by decide
  distinct := by decide

theorem greedyVerify_longest_pairRow : ∃ path, pairRow.LongestPath 0 pairChildren 1 0 path ∧
    pairRow.verifyDynamicTreeGreedyPackedKernel 0 none 3 ⟨0, 0, 0⟩ =
      some (pairRow.acceptAll 0 0 path.length (0 :: path) ⟨0, 0, 0⟩) := by
  obtain ⟨path, hpath, -, hrun, -⟩ := greedyVerify_longest childLists_pairRow (by decide) none rfl (fun _ => 1)
    (by decide) (by decide : _ < 3) ⟨0, 0, 0⟩
  exact ⟨path, hpath, hrun⟩

/-- The same row marked invalid: the child is not accepted. -/
theorem invalid_pairRow_not_verified : pairRow.ChildLists 0 pairChildren ∧ pairRow.MatchPath 0 pairChildren 0 [1] ∧
    ((pairRow.verifyDynamicTreeGreedyPackedKernel 0 (some fun _ => false) 3 ⟨0, 0, 0⟩).map (·.acceptTokenNum 0)) = some 0 ∧
    ((pairRow.treeSpecGreedyVerifyMain 0 (fun _ => 0) 3 ⟨0, 0, 0⟩).map (·.acceptTokenNum 0)) = some 0 :=
  ⟨childLists_pairRow, ⟨.head _, rfl, trivial⟩, rfl, rfl⟩

end VerifyArgs

end TrtLlm.Kernels
