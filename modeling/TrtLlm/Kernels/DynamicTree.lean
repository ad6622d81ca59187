import Mathlib
import TrtLlm.Lib.Threads

/-!
# Rebuilding dynamic draft trees

`buildDynamicTreeKernelPacked` turns the selected history indices of a batch row into a tree mask, positions and child
lists. One thread of a block links the children, each of the others walks up from its own node.
-/

namespace TrtLlm.Kernels

open Lib Function Thread

structure TreeArgs where
  parentList : ℕ → ℤ
  selectedIndex : ℕ → ℕ
  topK : ℕ
  depth : ℕ
  draftTokenNum : ℕ
  numInt32PerRow : ℕ

/-- An element of one of the buffers that the tree kernels write. -/
inductive Word where
  | treeMask (i : ℕ)
  | positions (i : ℕ)
  | retrieveIndex (i : ℕ)
  | retrieveNextToken (i : ℕ)
  | retrieveNextSibling (i : ℕ)
  deriving DecidableEq

abbrev KernelThread := Thread Word ℤ

def orBit (bitIdx : ℕ) (word : ℤ) : ℤ := (word.toNat ||| 1 <<< bitIdx : ℕ)

structure Fresh (m : Word → ℤ) : Prop where
  treeMask : ∀ i, m (.treeMask i) = 0
  retrieveNextToken : ∀ i, m (.retrieveNextToken i) = -1
  retrieveNextSibling : ∀ i, m (.retrieveNextSibling i) = -1

def launch (kernel : ℕ → ℕ → KernelThread) (batchSize : ℕ) (i : ℕ × ℕ) : KernelThread :=
  if i.1 < batchSize then kernel i.1 i.2 else .done

/-- The pointers from `v` on list `l` and end with -1. -/
def Linked (next : ℕ → ℤ) : ℤ → List ℕ → Prop
  | v, [] => v = -1
  | v, n :: l => v = n ∧ Linked next (next n) l

theorem Linked.congr {next next' : ℕ → ℤ} {v : ℤ} {l : List ℕ} (h : Linked next v l) (hsame : ∀ n ∈ l, next' n = next n) :
    Linked next' v l := by
  induction l generalizing v with
  | nil => exact h
  | cons n l ih =>
    refine ⟨h.1, ?_⟩
    rw [hsame n (.head _)]
    exact ih h.2 (List.forall_mem_cons.1 hsame).2

/-- The kernel reads the first child a second time. -/
def pushChild (parent sibling : Word) (i : ℕ) (_ : ℤ) (next : KernelThread) : KernelThread :=
  .load parent fun originNextToken => .store parent i <| .store sibling originNextToken next

namespace TreeArgs

variable (a : TreeArgs) (bid : ℕ)

def entry (n : ℕ) : ℕ := bid * a.draftTokenNum + n

def selected (i : ℕ) : ℕ := a.selectedIndex (bid * (a.draftTokenNum - 1) + i)

def parentTbIdx (i : ℕ) : ℕ := a.selected bid i / a.topK

def parentTokenIdx (i : ℕ) : ℤ := a.parentList (bid * (a.topK * (a.depth - 1) + 1) + a.parentTbIdx bid i)

/-- The search loop: where the token is found, `draftTokenNum` if it is not. -/
def search (tokenIdx : ℤ) : ℕ := (List.range a.draftTokenNum).findIdx fun i => decide (a.selected bid i = tokenIdx)

def parentPosition (i : ℕ) : ℕ :=
  if 0 < a.parentTbIdx bid (i - 1) then
    let found := a.search bid (a.parentTokenIdx bid (i - 1))
    if found < a.draftTokenNum then found + 1 else found
  else 0

/-- The loop of the first thread, from token `i` down. `push` puts token `i` before the first child `head` of its
parent. -/
def linkChildren (push : (parent sibling : Word) → (i : ℕ) → (head : ℤ) → KernelThread → KernelThread)
    (next : KernelThread) : ℕ → KernelThread
  | 0 => next
  | i + 1 =>
    .store (.retrieveIndex (a.entry bid (i + 1))) (i + 1 : ℕ) <|
      if a.parentPosition bid (i + 1) = a.draftTokenNum then linkChildren push next i
      else
        let parent := Word.retrieveNextToken (a.entry bid (a.parentPosition bid (i + 1)))
        .load parent fun head =>
          if head = -1 then .store parent (i + 1 : ℕ) (linkChildren push next i)
          else push parent (.retrieveNextSibling (a.entry bid (i + 1))) (i + 1) head (linkChildren push next i)

/-- The loop of the other threads, for as many rounds as `position` may still go up. -/
def walkAncestors (mark : ℕ → KernelThread → KernelThread) (next : ℕ → KernelThread) :
    (rounds position curPosition : ℕ) → KernelThread
  | 0, position, _ => next position
  | rounds + 1, position, curPosition =>
    mark (curPosition + 1) <|
      if a.parentTbIdx bid curPosition = 0 then next (position + 1)
      else
        let found := a.search bid (a.parentTokenIdx bid curPosition)
        if found = a.draftTokenNum then next (position + 1)
        else walkAncestors mark next rounds (position + 1) found

/-- `atomicOr` on the mask row at `rowBaseIdx`. -/
def atomicOrBit (rowBaseIdx bitPosition : ℕ) (next : KernelThread) : KernelThread :=
  if bitPosition / 32 < a.numInt32PerRow then
    .modify (.treeMask (rowBaseIdx + bitPosition / 32)) (orBit (bitPosition % 32)) next
  else next

def buildDynamicTreeKernelPacked (tid : ℕ) : KernelThread :=
  if a.draftTokenNum ≤ tid then .done
  else
    .store (.treeMask (a.entry bid tid * a.numInt32PerRow)) 1 <|
      if tid = 0 then
        .store (.positions (a.entry bid 0)) 0 <|
          a.linkChildren bid pushChild (.store (.retrieveIndex (a.entry bid 0)) 0 .done) (a.draftTokenNum - 1)
      else
        a.walkAncestors bid (a.atomicOrBit (a.entry bid tid * a.numInt32PerRow))
          (fun position => .store (.positions (a.entry bid tid)) position .done) (a.depth + 1) 0 (tid - 1)

/-- Node 0 is the root, node `n + 1` the selected token `n`. -/
def IsParent (p n : ℕ) : Prop :=
  0 < n ∧ n < a.draftTokenNum ∧
    if a.parentTbIdx bid (n - 1) = 0 then p = 0
    else 0 < p ∧ p < a.draftTokenNum ∧ a.selected bid (p - 1) = a.parentTokenIdx bid (n - 1)

def Ancestor : ℕ → ℕ → Prop := Relation.TransGen (a.IsParent bid)

inductive AtDepth : ℕ → ℕ → Prop
  | root : AtDepth 0 0
  | child {d p n : ℕ} (hparent : a.IsParent bid p n) (hdepth : AtDepth d p) : AtDepth (d + 1) n

/-- The selected indices of the row are distinct, and every node leads to the root within `depth` steps. -/
structure ParentClosed : Prop where
  distinct : ∀ i < a.draftTokenNum - 1, ∀ j < a.draftTokenNum - 1, a.selected bid i = a.selected bid j → i = j
  reached : ∀ n < a.draftTokenNum, ∃ d ≤ a.depth, a.AtDepth bid d n

/-- Bit `x` of a mask row, counted over all its words. -/
def marked (m : Word → ℤ) (row x : ℕ) : Bool := (m (.treeMask (row * a.numInt32PerRow + x / 32))).toNat.testBit (x % 32)

/-- The pointers of `p` list its children above `i`, in increasing order. -/
def Lists (m : Word → ℤ) (i p : ℕ) : Prop :=
  ∃ l : List ℕ, l.Pairwise (· < ·) ∧ (∀ n, n ∈ l ↔ a.IsParent bid p n ∧ i < n) ∧
    Linked (fun n => m (.retrieveNextSibling (a.entry bid n))) (m (.retrieveNextToken (a.entry bid p))) l

/-- What the kernel is to leave for node `n` of a row. -/
structure Rebuilt (m : Word → ℤ) (n : ℕ) : Prop where
  mask : ∀ x < 32 * a.numInt32PerRow, a.marked m (a.entry bid n) x = true ↔ x = 0 ∨ x = n ∨ a.Ancestor bid x n
  position : ∃ d : ℕ, a.AtDepth bid d n ∧ m (.positions (a.entry bid n)) = d
  children : a.Lists bid m 0 n

/-- Token `i` has become the first child of `p`. -/
structure Inserted (m m' : Word → ℤ) (i p : ℕ) : Prop where
  sibling : ∀ n, n ≠ i → m' (.retrieveNextSibling (a.entry bid n)) = m (.retrieveNextSibling (a.entry bid n))
  token : ∀ q, q ≠ p → m' (.retrieveNextToken (a.entry bid q)) = m (.retrieveNextToken (a.entry bid q))
  first : m' (.retrieveNextToken (a.entry bid p)) = i
  second : m' (.retrieveNextSibling (a.entry bid i)) = m (.retrieveNextToken (a.entry bid p))

/-- The thread whose business an element is. -/
def owner : Word → ℕ × ℕ
  | .treeMask i => (i / a.numInt32PerRow / a.draftTokenNum, i / a.numInt32PerRow % a.draftTokenNum)
  | .positions i => (i / a.draftTokenNum, i % a.draftTokenNum)
  | .retrieveIndex i | .retrieveNextToken i | .retrieveNextSibling i => (i / a.draftTokenNum, 0)

variable {a bid} {P : Word → Prop} {m m' : Word → ℤ} {d i n p q x : ℕ}

@[simp] theorem entry_inj : a.entry bid p = a.entry bid q ↔ p = q := add_left_cancel_iff

theorem within_linkChildren {push : Word → Word → ℕ → ℤ → KernelThread → KernelThread} {next : KernelThread}
    (hpush : ∀ parent sibling i head t, P parent → P sibling → t.Within P → (push parent sibling i head t).Within P)
    (hnext : next.Within P)
    (hP : ∀ j < a.draftTokenNum, P (.retrieveIndex (a.entry bid j)) ∧ P (.retrieveNextToken (a.entry bid j)) ∧
      P (.retrieveNextSibling (a.entry bid j)))
    (hi : i < a.draftTokenNum) : (a.linkChildren bid push next i).Within P := by
  induction i with
  | zero => exact hnext
  | succ i ih =>
    have hrest := ih (by omega)
    have hle : a.parentPosition bid (i + 1) ≤ a.draftTokenNum := by
      have hle : a.search bid (a.parentTokenIdx bid (i + 1 - 1)) ≤ a.draftTokenNum := List.findIdx_le_length.trans_eq List.length_range
      unfold parentPosition
      dsimp only
      split_ifs <;> omega
    obtain ⟨hindex, -, hsibling⟩ := hP _ hi
    rw [linkChildren, within_store]
    refine ⟨hindex, ?_⟩
    split
    · exact hrest
    have hparent := (hP (a.parentPosition bid (i + 1)) (by omega)).2.1
    refine ⟨hparent, fun v => ?_⟩
    dsimp only
    split
    · exact within_store.2 ⟨hparent, hrest⟩
    · exact hpush _ _ _ _ _ hparent hsibling hrest

theorem within_pushChild (parent sibling : Word) (i : ℕ) (head : ℤ) (t : KernelThread) (hparent : P parent)
    (hsibling : P sibling) (ht : t.Within P) : (pushChild parent sibling i head t).Within P :=
  ⟨hparent, fun _ => within_store.2 ⟨hparent, within_store.2 ⟨hsibling, ht⟩⟩⟩

theorem within_walkAncestors {mark : ℕ → KernelThread → KernelThread} {next : ℕ → KernelThread}
    (hmark : ∀ bitPosition t, t.Within P → (mark bitPosition t).Within P) (hnext : ∀ pos, (next pos).Within P)
    (rounds pos curPosition : ℕ) : (a.walkAncestors bid mark next rounds pos curPosition).Within P := by
  induction rounds generalizing pos curPosition with
  | zero => exact hnext pos
  | succ rounds ih =>
    apply hmark
    dsimp only
    split_ifs
    · exact hnext _
    · exact hnext _
    · exact ih ..

theorem div_mod_row (hn : n < q) : (p * q + n) / q = p ∧ (p * q + n) % q = n := by
  rw [mul_comm, Nat.mul_add_div (by omega), Nat.mul_add_mod, Nat.div_eq_of_lt hn, Nat.mod_eq_of_lt hn]
  exact ⟨rfl, rfl⟩

theorem owner_treeMask (hn : n < a.draftTokenNum) (hp : p < a.numInt32PerRow) :
    a.owner (.treeMask (a.entry bid n * a.numInt32PerRow + p)) = (bid, n) := by
  rw [owner, (div_mod_row hp).1, entry, (div_mod_row hn).1, (div_mod_row hn).2]

theorem owner_positions (hn : n < a.draftTokenNum) : a.owner (.positions (a.entry bid n)) = (bid, n) := by
  rw [owner, entry, (div_mod_row hn).1, (div_mod_row hn).2]

theorem owner_pointers (hn : n < a.draftTokenNum) : a.owner (.retrieveIndex (a.entry bid n)) = (bid, 0) ∧
    a.owner (.retrieveNextToken (a.entry bid n)) = (bid, 0) ∧
    a.owner (.retrieveNextSibling (a.entry bid n)) = (bid, 0) := by
  simp [owner, entry, (div_mod_row hn).1]

/-- No thread leaves its own elements. -/
theorem within_buildDynamicTreeKernelPacked (hstride : 0 < a.numInt32PerRow) (bid tid : ℕ) :
    (a.buildDynamicTreeKernelPacked bid tid).Within (a.owner · = (bid, tid)) := by
  unfold buildDynamicTreeKernelPacked
  split_ifs with htid hroot
  · trivial
  · subst hroot
    have hpos := Nat.lt_of_not_le htid
    refine within_store.2 ⟨owner_treeMask hpos hstride, within_store.2 ⟨owner_positions hpos, ?_⟩⟩
    apply within_linkChildren within_pushChild _ (fun _ => owner_pointers) (Nat.sub_one_lt_of_lt hpos)
    exact within_store.2 ⟨(owner_pointers hpos).1, trivial⟩
  · refine within_store.2 ⟨owner_treeMask (Nat.lt_of_not_le htid) hstride, ?_⟩
    apply within_walkAncestors
    · intro bitPosition t ht
      unfold atomicOrBit
      split
      · exact within_modify.2 ⟨owner_treeMask (Nat.lt_of_not_le htid) ‹_›, ht⟩
      · exact ht
    · exact fun pos => within_store.2 ⟨owner_positions (Nat.lt_of_not_le htid), trivial⟩

theorem within_launch {kernel : ℕ → ℕ → KernelThread} {owner : Word → ℕ × ℕ} {batchSize : ℕ}
    (hkernel : ∀ bid tid, (kernel bid tid).Within (owner · = (bid, tid))) (i : ℕ × ℕ) :
    (launch kernel batchSize i).Within (owner · = i) := by
  unfold launch
  split
  · exact hkernel i.1 i.2
  · trivial

theorem not_ancestor_zero : ¬ a.Ancestor bid x 0 := by
  intro h
  obtain ⟨y, -, hy⟩ := Relation.TransGen.tail'_iff.1 h
  exact lt_irrefl 0 hy.1

theorem marked_orBit
    (hm : m' = update m (.treeMask (q * a.numInt32PerRow + n / 32))
      (orBit (n % 32) (m (.treeMask (q * a.numInt32PerRow + n / 32))))) :
    a.marked m' q x = (a.marked m q x || decide (x = n)) := by
  rw [hm, marked, marked]
  by_cases hword : x / 32 = n / 32
  · rw [hword, update_self, orBit, Int.toNat_natCast, Nat.testBit_or, Nat.one_shiftLeft, Nat.testBit_two_pow]
    congr 2
    exact propext ⟨fun h => by omega, fun h => by omega⟩
  · rw [update_of_ne (by simpa using hword), decide_eq_false (by rintro rfl; exact hword rfl), Bool.or_false]

theorem marked_root (hm : Fresh m) (row x : ℕ) :
    a.marked (update m (.treeMask (row * a.numInt32PerRow)) 1) row x = decide (x = 0) := by
  rw [marked_orBit (m := m) (n := 0) (by rw [hm.treeMask]; rfl), marked, hm.treeMask, Int.toNat_zero, Nat.zero_testBit,
    Bool.false_or]

theorem run_atomicOrBit (m : Word → ℤ) (row n : ℕ) :
    ∃ m', (∀ t : KernelThread, (a.atomicOrBit (row * a.numInt32PerRow) n t).run m = t.run m') ∧
      ∀ x < 32 * a.numInt32PerRow, a.marked m' row x = (a.marked m row x || decide (x = n)) := by
  unfold atomicOrBit
  split
  · exact ⟨_, fun t => rfl, fun x _ => marked_orBit rfl⟩
  · refine ⟨m, fun t => rfl, fun x hx => ?_⟩
    rw [decide_eq_false (by omega), Bool.or_false]

section Closed

variable (hclosed : a.ParentClosed bid)

include hclosed

theorem search_eq (hparent : a.IsParent bid p n) (hroot : a.parentTbIdx bid (n - 1) ≠ 0) :
    a.search bid (a.parentTokenIdx bid (n - 1)) = p - 1 ∧ 0 < p ∧ p < a.draftTokenNum := by
  obtain ⟨-, -, hp⟩ := hparent
  rw [if_neg hroot] at hp
  obtain ⟨hpos, hlt, hsel⟩ := hp
  refine ⟨?_, hpos, hlt⟩
  rw [search, List.findIdx_eq (by simp; omega)]
  simp only [List.getElem_range]
  refine ⟨decide_eq_true hsel, fun j hj => decide_eq_false fun hother => ?_⟩
  have heq := hclosed.distinct j (by omega) (p - 1) (by omega) (Int.ofNat_inj.1 (hother.trans hsel.symm))
  omega

theorem parentPosition_eq (hparent : a.IsParent bid p n) : a.parentPosition bid n = p ∧ p < a.draftTokenNum := by
  unfold parentPosition
  by_cases hroot : a.parentTbIdx bid (n - 1) = 0
  · obtain ⟨-, hn, hp⟩ := hparent
    rw [if_pos hroot] at hp
    rw [hroot, hp]
    exact ⟨if_neg (lt_irrefl 0), by omega⟩
  · obtain ⟨hsearch, hpos, hlt⟩ := search_eq hclosed hparent hroot
    rw [if_pos (Nat.pos_of_ne_zero hroot)]
    exact ⟨(if_pos (by omega)).trans (by omega), hlt⟩

theorem IsParent.unique (hp : a.IsParent bid p n) (hq : a.IsParent bid q n) : p = q :=
  (parentPosition_eq hclosed hp).1.symm.trans (parentPosition_eq hclosed hq).1

theorem ancestor_iff (hparent : a.IsParent bid p n) : a.Ancestor bid x n ↔ x = p ∨ a.Ancestor bid x p := by
  rw [Ancestor, Relation.TransGen.tail'_iff, eq_comm, ← Relation.reflTransGen_iff_eq_or_transGen]
  constructor
  · rintro ⟨y, hy, hyn⟩
    exact hyn.unique hclosed hparent ▸ hy
  · exact fun h => ⟨p, h, hparent⟩

theorem Lists.insert (hp : a.IsParent bid p (i + 1)) (h : a.Lists bid m (i + 1) q)
    (hinserted : a.Inserted bid m m' (i + 1) p) : a.Lists bid m' i q := by
  obtain ⟨l, hsorted, hmem, hlinked⟩ := h
  have hl : ∀ n ∈ l, i + 1 < n := fun n hn => ((hmem n).1 hn).2
  have hlinked' := hlinked.congr fun n hn => hinserted.sibling n (hl n hn).ne'
  by_cases hq : q = p
  · subst hq
    refine ⟨(i + 1) :: l, List.pairwise_cons.2 ⟨hl, hsorted⟩, fun n => ?_, hinserted.first, ?_⟩
    · rw [List.mem_cons, hmem]
      constructor
      · rintro (rfl | ⟨hn, hlt⟩)
        · exact ⟨hp, i.lt_succ_self⟩
        · exact ⟨hn, by omega⟩
      · rintro ⟨hn, hlt⟩
        exact (eq_or_lt_of_le hlt).imp .symm fun hlt => ⟨hn, hlt⟩
    · dsimp only
      rw [hinserted.second]
      exact hlinked'
  · refine ⟨l, hsorted, fun n => ?_, hinserted.token q hq ▸ hlinked'⟩
    rw [hmem]
    refine and_congr_right fun hn => ⟨fun hlt => by omega, fun hlt => ?_⟩
    refine (eq_or_lt_of_le hlt).resolve_left ?_
    rintro rfl
    exact hq (hn.unique hclosed hp)

theorem run_linkChildren (next : KernelThread) (hi : i < a.draftTokenNum)
    (hlists : ∀ p < a.draftTokenNum, a.Lists bid m i p)
    (hfresh : ∀ n ≤ i, m (.retrieveNextSibling (a.entry bid n)) = -1) :
    ∃ m', (a.linkChildren bid pushChild next i).run m = next.run m' ∧ ∀ p < a.draftTokenNum, a.Lists bid m' 0 p := by
  induction i generalizing m with
  | zero => exact ⟨m, rfl, hlists⟩
  | succ i ih =>
    obtain ⟨d, -, hdepth⟩ := hclosed.reached (i + 1) hi
    obtain ⟨-⟩ | @⟨_, p, _, hparent, -⟩ := hdepth
    obtain ⟨hpos, hlt⟩ := parentPosition_eq hclosed hparent
    have hrest : ∀ m', a.Inserted bid m m' (i + 1) p → ∃ m'', (a.linkChildren bid pushChild next i).run m' = next.run
      m'' ∧ ∀ p < a.draftTokenNum, a.Lists bid m'' 0 p := by
      intro m' hinserted
      apply ih (by omega)
      · exact fun q hq => (hlists q hq).insert hclosed hparent hinserted
      · intro n hn
        rw [hinserted.sibling n (by omega), hfresh n (by omega)]
    rw [linkChildren, hpos, if_neg hlt.ne]
    by_cases hhead : m (.retrieveNextToken (a.entry bid p)) = -1
    · simp only [store, load, run, ne_eq, reduceCtorEq, not_false_eq_true, update_of_ne, hhead]
      apply hrest
      constructor <;> simp +contextual [update, hfresh, hhead]
    · simp only [store, load, run, ne_eq, reduceCtorEq, not_false_eq_true, update_of_ne, hhead]
      apply hrest
      constructor <;> simp +contextual [update]

/-- The walk from node `n`, alone: it marks the node and its ancestors and counts them. -/
theorem run_walkAncestors (next : ℕ → KernelThread) (hn : 0 < n)
    (h : a.AtDepth bid d n) {rounds : ℕ} (hrounds : d ≤ rounds) (pos row : ℕ) (m : Word → ℤ) :
    ∃ m', (a.walkAncestors bid (a.atomicOrBit (row * a.numInt32PerRow)) next rounds pos (n - 1)).run m =
        (next (pos + d)).run m' ∧ ∀ x < 32 * a.numInt32PerRow,
      a.marked m' row x = true ↔ a.marked m row x = true ∨ (x ≠ 0 ∧ (x = n ∨ a.Ancestor bid x n)) := by
  induction h generalizing rounds pos m with
  | root => exact absurd hn (lt_irrefl 0)
  | @child d p n hparent h ih =>
    obtain ⟨rounds, rfl⟩ : ∃ k, rounds = k + 1 := ⟨rounds - 1, by omega⟩
    -- the bit of the node itself is set first
    obtain ⟨m₁, hrun₁, hmark₁⟩ := run_atomicOrBit m row n
    rw [walkAncestors, Nat.sub_add_cancel hn, hrun₁]
    by_cases hroot : a.parentTbIdx bid (n - 1) = 0
    · have hzero : p = 0 := by simpa [hroot] using hparent.2.2
      subst hzero
      obtain rfl : d = 0 := by
        cases h with
        | root => rfl
        | child hparent => exact absurd hparent.1 (lt_irrefl 0)
      rw [if_pos hroot]
      refine ⟨m₁, rfl, fun x hx => ?_⟩
      rw [ancestor_iff hclosed hparent, or_iff_left not_ancestor_zero]
      grind
    · obtain ⟨hsearch, hpos, hlt⟩ := search_eq hclosed hparent hroot
      have hrest : d ≤ rounds := by omega
      obtain ⟨m', hrun, hmarks⟩ := ih hpos hrest (pos + 1) m₁
      rw [if_neg hroot, hsearch, if_neg (by omega), hrun, add_right_comm]
      refine ⟨m', rfl, fun x hx => ?_⟩
      rw [ancestor_iff hclosed hparent]
      grind

theorem run_root (hm : Fresh m) (hpos : 0 < a.draftTokenNum) :
    (∀ x, a.marked ((a.buildDynamicTreeKernelPacked bid 0).run m) (a.entry bid 0) x = decide (x = 0)) ∧
      (a.buildDynamicTreeKernelPacked bid 0).run m (.positions (a.entry bid 0)) = 0 ∧
      ∀ p < a.draftTokenNum, a.Lists bid ((a.buildDynamicTreeKernelPacked bid 0).run m) 0 p := by
  have hwithin : (a.linkChildren bid pushChild (.store (.retrieveIndex (a.entry bid 0)) 0 .done)
      (a.draftTokenNum - 1)).Within fun w => (∀ i, w ≠ .treeMask i) ∧ ∀ i, w ≠ .positions i :=
    within_linkChildren within_pushChild (within_store.2 (by simp [Thread.Within])) (by simp) (by omega)
  rw [buildDynamicTreeKernelPacked, if_neg (by omega), if_pos rfl, store, run, store, run]
  refine ⟨fun x => ?_, ?_, ?_⟩
  · rw [← marked_root hm (a.entry bid 0), marked, run_of_not hwithin (by simp)]
    rfl
  · rw [run_of_not hwithin (by simp)]
    exact update_self ..
  have hnone : ∀ p < a.draftTokenNum, a.Lists bid m (a.draftTokenNum - 1) p := by
    refine fun p _ => ⟨[], .nil, fun n => ?_, hm.retrieveNextToken _⟩
    simp only [List.not_mem_nil, false_iff]
    rintro ⟨⟨-, hn, -⟩, hlt⟩
    omega
  obtain ⟨m', hlink, hlists⟩ := run_linkChildren (m := update (update m
      (.treeMask (a.entry bid 0 * a.numInt32PerRow)) 1) (.positions (a.entry bid 0)) 0)
    hclosed (.store (.retrieveIndex (a.entry bid 0)) 0 .done) (by omega) hnone fun n _ => hm.retrieveNextSibling _
  rw [hlink]
  exact hlists

theorem run_node (hm : Fresh m) (hn : 0 < n) (hlt : n < a.draftTokenNum)
    (hdepth : a.AtDepth bid d n) (hle : d ≤ a.depth) :
    (∀ x < 32 * a.numInt32PerRow, a.marked ((a.buildDynamicTreeKernelPacked bid n).run m) (a.entry bid n) x = true ↔
        x = 0 ∨ x = n ∨ a.Ancestor bid x n) ∧
      (a.buildDynamicTreeKernelPacked bid n).run m (.positions (a.entry bid n)) = d := by
  obtain ⟨m', hwalk, hmarks⟩ := run_walkAncestors hclosed
    (fun pos => .store (.positions (a.entry bid n)) pos .done) hn hdepth
    (hle.trans (Nat.le_succ _)) 0 (a.entry bid n) (update m (.treeMask (a.entry bid n * a.numInt32PerRow)) 1)
  have hrun : (a.buildDynamicTreeKernelPacked bid n).run m = update m' (.positions (a.entry bid n)) d := by
    rw [buildDynamicTreeKernelPacked, if_neg (by omega), if_neg (by omega), store, run, hwalk, zero_add]
    rfl
  rw [hrun]
  refine ⟨fun x hx => (hmarks x hx).trans ?_, update_self ..⟩
  rw [marked_root hm]
  grind

end Closed

theorem exists_leaves_launch {kernel : ℕ → ℕ → KernelThread} (hkernel : ∀ bid, ∀ tid ≥ n, kernel bid tid = .done)
    (batchSize : ℕ) (m : Word → ℤ) : ∃ m', Leaves (launch kernel batchSize) m m' := by
  apply exists_leaves (.range batchSize ×ˢ .range n)
  rintro ⟨bid, tid⟩ hi
  unfold launch
  split
  · apply hkernel
    simpa [‹bid < batchSize›] using hi
  · rfl

theorem eq_run_of_leaves {batchSize : ℕ} (hstride : 0 < a.numInt32PerRow)
    (hleaves : Leaves (launch a.buildDynamicTreeKernelPacked batchSize) m m') (hbid : bid < batchSize) {tid : ℕ} {w : Word}
    (hw : a.owner w = (bid, tid)) : m' w = (a.buildDynamicTreeKernelPacked bid tid).run m w := by
  have hrun := hleaves.eq_run (within_launch (within_buildDynamicTreeKernelPacked hstride)) w
  rw [hw, launch, if_pos hbid] at hrun
  exact hrun

/-- The kernel ends, and under every interleaving rebuilds the tree of each row that is parent-closed. -/
theorem dynamicTree_rebuilt (a : TreeArgs) (batchSize : ℕ) (hpos : 1 ≤ a.draftTokenNum)
    (hstride : (a.draftTokenNum + 31) / 32 ≤ a.numInt32PerRow) (m : Word → ℤ) (hm : Fresh m) :
    (∃ m', Leaves (launch a.buildDynamicTreeKernelPacked batchSize) m m') ∧
      ∀ m', Leaves (launch a.buildDynamicTreeKernelPacked batchSize) m m' → ∀ bid < batchSize, a.ParentClosed bid →
        ∀ n < a.draftTokenNum, a.Rebuilt bid m' n := by
  refine ⟨exists_leaves_launch (fun bid tid htid => if_pos htid) batchSize m, ?_⟩
  intro m' hleaves bid hbid hclosed n hn
  have hown {tid : ℕ} {w : Word} (hw : a.owner w = (bid, tid)) := eq_run_of_leaves (by omega) hleaves hbid hw
  have hmarked : ∀ x < 32 * a.numInt32PerRow, a.marked m' (a.entry bid n) x =
      a.marked ((a.buildDynamicTreeKernelPacked bid n).run m) (a.entry bid n) x := by
    intro x hx
    rw [marked, hown (owner_treeMask hn (by omega)), marked]
  obtain ⟨hroot, hzero, hlists⟩ := run_root hclosed hm hpos
  have hchildren : a.Lists bid m' 0 n := by
    obtain ⟨l, hsorted, hmem, hlinked⟩ := hlists n hn
    refine ⟨l, hsorted, hmem, ?_⟩
    rw [hown (owner_pointers hn).2.1]
    apply hlinked.congr
    intro c hc
    exact hown (owner_pointers ((hmem c).1 hc).1.2.1).2.2
  obtain ⟨d, hle, hd⟩ := hclosed.reached n hn
  rcases Nat.eq_zero_or_pos n with rfl | hn0
  · refine ⟨fun x hx => ?_, ⟨0, .root, (hown (owner_positions hn)).trans hzero⟩, hchildren⟩
    rw [hmarked x hx, hroot, decide_eq_true_iff, or_iff_left not_ancestor_zero, or_self]
  · obtain ⟨hmarks, hposition⟩ := run_node hclosed hm hn0 hn hd hle
    refine ⟨fun x hx => ?_, ⟨d, hd, (hown (owner_positions hn)).trans hposition⟩, hchildren⟩
    rw [hmarked x hx, hmarks x hx]

def freshBuffers : Word → ℤ
  | .treeMask _ | .positions _ | .retrieveIndex _ => 0
  | .retrieveNextToken _ | .retrieveNextSibling _ => -1

theorem fresh_freshBuffers : Fresh freshBuffers := ⟨fun _ => rfl, fun _ => rfl, fun _ => rfl⟩

def twoLevels : TreeArgs := ⟨fun i => i - 1, fun i => i, 1, 2, 3, 1⟩

theorem dynamicTree_rebuilt_twoLevels : Fresh freshBuffers ∧
    ∀ m', Leaves (launch twoLevels.buildDynamicTreeKernelPacked 1) freshBuffers m' → ∀ n < 3, twoLevels.Rebuilt 0 m' n := by
  refine ⟨fresh_freshBuffers, fun m' h n hn => ?_⟩
  refine (dynamicTree_rebuilt twoLevels 1 (by decide) (by decide) _ fresh_freshBuffers).2 m' h 0 Nat.one_pos ?_ n hn
  have hone : twoLevels.AtDepth 0 1 1 := .child ⟨by decide, by decide, rfl⟩ .root
  have htwo : twoLevels.AtDepth 0 2 2 := .child ⟨by decide, by decide, by decide, by decide, rfl⟩ hone
  refine ⟨fun i _ j _ heq => by simpa [selected, twoLevels] using heq, fun n hn => ?_⟩
  match n, hn with
  | 0, _ => exact ⟨0, by decide, .root⟩
  | 1, _ => exact ⟨1, by decide, hone⟩
  | 2, _ => exact ⟨2, by decide, htwo⟩

end TreeArgs

end TrtLlm.Kernels
