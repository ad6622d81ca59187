import TrtLlm.Kernels.DynamicTree

/-!
# The Vulkan port of the tree kernel

`tree_spec_build.comp` runs one workgroup for each node. The workgroups of a batch row all write their bits into the mask
row of the root, and the other mask rows stay empty.
-/

namespace TrtLlm.Kernels

open Lib Thread

def lowDword (v : ℤ) : ℕ := (v % 2 ^ 32).toNat

/-- The shader uses the first child it has read. -/
def pushChildFirst (parent sibling : Word) (i : ℕ) (childFirst : ℤ) (next : KernelThread) : KernelThread :=
  .store sibling childFirst <| .store parent i next

namespace TreeArgs

variable (a : TreeArgs) (bid : ℕ)

def lowDwords : TreeArgs := { a with
    parentList := fun i => lowDword (a.parentList i)
    selectedIndex := fun i => lowDword (a.selectedIndex i) }

/-- `treeMask[..] |= ..` on the mask row at `rowBaseTree`, which is not atomic. -/
def orAssignBit (rowBaseTree bitPosition : ℕ) (next : KernelThread) : KernelThread :=
  if bitPosition / 32 < a.numInt32PerRow then
    .load (.treeMask (rowBaseTree + bitPosition / 32)) fun word =>
      .store (.treeMask (rowBaseTree + bitPosition / 32)) (orBit (bitPosition % 32) word) next
  else next

def treeSpecBuildMain (tid : ℕ) : KernelThread :=
  if a.draftTokenNum ≤ tid then .done
  else
    let mark := a.orAssignBit (a.entry bid 0 * a.numInt32PerRow)
    if tid = 0 then
      mark 0 <| .store (.positions (a.entry bid 0)) 0 <| .store (.retrieveIndex (a.entry bid 0)) 0 <|
        a.linkChildren bid pushChildFirst .done (a.draftTokenNum - 1)
    else
      a.walkAncestors bid mark (fun position => .store (.positions (a.entry bid tid)) position .done) (a.depth + 1) 0 (tid - 1)

def treeSpecBuild : ℕ → ℕ → KernelThread := a.lowDwords.treeSpecBuildMain

/-- What `dispatchTreeSpecBuild` does not reject. -/
def Dispatched (batchSize : ℕ) : Prop := batchSize ≠ 0 ∧ a.draftTokenNum ≠ 0 ∧ a.topK ≠ 0 ∧ a.depth ≠ 0 ∧ a.numInt32PerRow ≠ 0

variable {a bid} {P : Word → Prop} {m m' : Word → ℤ}

theorem within_treeSpecBuildMain {tid : ℕ}
    (hmask : ∀ w < a.numInt32PerRow, P (.treeMask (a.entry bid 0 * a.numInt32PerRow + w)))
    (hP : ∀ n < a.draftTokenNum, P (.positions (a.entry bid n)) ∧ P (.retrieveIndex (a.entry bid n)) ∧
      P (.retrieveNextToken (a.entry bid n)) ∧ P (.retrieveNextSibling (a.entry bid n))) :
    (a.treeSpecBuildMain bid tid).Within P := by
  have hmark : ∀ bitPosition t, t.Within P → (a.orAssignBit (a.entry bid 0 * a.numInt32PerRow) bitPosition t).Within P := by
    intro bitPosition t ht
    unfold orAssignBit
    split
    · exact ⟨hmask _ ‹_›, fun _ => within_store.2 ⟨hmask _ ‹_›, ht⟩⟩
    · exact ht
  unfold treeSpecBuildMain
  split_ifs with htid hroot
  · trivial
  · have hzero := hP 0 (by omega)
    refine hmark _ _ (within_store.2 ⟨hzero.1, within_store.2 ⟨hzero.2.1, ?_⟩⟩)
    refine within_linkChildren ?_ trivial (fun n hn => (hP n hn).2) (by omega)
    intro parent sibling i head t hparent hsibling ht
    exact within_store.2 ⟨hsibling, within_store.2 ⟨hparent, ht⟩⟩
  · apply within_walkAncestors hmark
    exact fun position => within_store.2 ⟨(hP tid (by omega)).1, trivial⟩

/-- With more than one node, the shader leaves the second mask row alone. -/
theorem eq_zero_of_treeSpecBuildMain {batchSize : ℕ} (hnum : 1 < a.draftTokenNum) (hstride : 0 < a.numInt32PerRow)
    (hm : Fresh m) (hleaves : Leaves (launch a.treeSpecBuildMain batchSize) m m') :
    m' (.treeMask (a.entry 0 1 * a.numInt32PerRow)) = 0 := by
  rw [hleaves.eq_of_not (P := (· ≠ .treeMask (a.entry 0 1 * a.numInt32PerRow))) _ (not_not.2 rfl), hm.treeMask]
  intro i
  unfold launch
  split
  · refine within_treeSpecBuildMain (fun w hw heq => ?_) fun n _ => by simp
    have howner := congrArg a.owner heq
    have hrow : a.owner (.treeMask (a.entry 0 1 * a.numInt32PerRow)) = (0, 1) := owner_treeMask hnum hstride
    rw [owner_treeMask (by omega) hw, hrow] at howner
    exact Nat.zero_ne_one (congrArg Prod.snd howner)
  · trivial

theorem ne_zero_of_buildDynamicTreeKernelPacked {batchSize : ℕ} (hnum : 1 < a.draftTokenNum)
    (hstride : 0 < a.numInt32PerRow) (hm : Fresh m) (hbatch : 0 < batchSize) (hclosed : a.ParentClosed 0)
    (hleaves : Leaves (launch a.buildDynamicTreeKernelPacked batchSize) m m') :
    m' (.treeMask (a.entry 0 1 * a.numInt32PerRow)) ≠ 0 := by
  obtain ⟨d, hle, hd⟩ := hclosed.reached 1 hnum
  have hmarked := ((run_node hclosed hm Nat.one_pos hnum hd hle).1 0 (by omega)).2 (.inl rfl)
  intro hzero
  rw [marked, ← eq_run_of_leaves hstride hleaves hbatch (owner_treeMask hnum hstride), add_zero, hzero] at hmarked
  cases hmarked

theorem treeSpecBuild_of_le {tid : ℕ} (hle : a.draftTokenNum ≤ tid) : a.treeSpecBuild bid tid = .done := if_pos hle

theorem within_treeSpecBuild_of_single (hnum : a.draftTokenNum = 1) (bid tid : ℕ) :
    (a.treeSpecBuild bid tid).Within (a.owner · = (bid, tid)) := by
  by_cases htid : tid = 0
  · subst htid
    apply within_treeSpecBuildMain
    · exact fun w hw => owner_treeMask (hnum ▸ Nat.one_pos) hw
    · intro n hn
      obtain rfl : n = 0 := Nat.lt_one_iff.1 (hnum ▸ hn)
      exact ⟨owner_positions hn, owner_pointers hn⟩
  · rw [treeSpecBuild_of_le (hnum.trans_le (Nat.one_le_iff_ne_zero.2 htid))]
    trivial

theorem run_of_single (hnum : a.draftTokenNum = 1) (hstride : 0 < a.numInt32PerRow) (hm : Fresh m) (bid tid : ℕ) :
    (a.treeSpecBuild bid tid).run m = (a.buildDynamicTreeKernelPacked bid tid).run m := by
  by_cases htid : tid = 0
  · simp [htid, treeSpecBuild, treeSpecBuildMain, buildDynamicTreeKernelPacked, lowDwords, entry, hnum, orAssignBit,
      hstride, linkChildren, run, store, load, hm.treeMask, orBit]
  · have hle : a.draftTokenNum ≤ tid := hnum.trans_le (Nat.one_le_iff_ne_zero.2 htid)
    rw [treeSpecBuild_of_le hle, buildDynamicTreeKernelPacked, if_pos hle]

/-- The shader leaves what the kernel leaves exactly when the trees are single nodes. -/
theorem treeSpecBuild_refines_iff (a : TreeArgs) (batchSize : ℕ) (hdispatched : a.Dispatched batchSize)
    (hclosed : ∀ bid < batchSize, a.ParentClosed bid) (m : Word → ℤ) (hm : Fresh m) :
    (∀ m₁ m₂, Leaves (launch a.treeSpecBuild batchSize) m m₁ →
      Leaves (launch a.buildDynamicTreeKernelPacked batchSize) m m₂ → m₁ = m₂) ↔ a.draftTokenNum = 1 := by
  obtain ⟨hbatch, hnum, -, -, hstride⟩ := hdispatched
  have hstride := Nat.pos_of_ne_zero hstride
  constructor
  · intro hsame
    by_contra hmore
    obtain ⟨m₁, hm₁⟩ : ∃ m₁, Leaves (launch a.treeSpecBuild batchSize) m m₁ :=
      exists_leaves_launch (fun _ _ => treeSpecBuild_of_le) batchSize m
    obtain ⟨m₂, hm₂⟩ : ∃ m₂, Leaves (launch a.buildDynamicTreeKernelPacked batchSize) m m₂ :=
      exists_leaves_launch (fun bid tid htid => if_pos htid) batchSize m
    apply ne_zero_of_buildDynamicTreeKernelPacked (by omega) hstride hm (by omega) (hclosed 0 (by omega)) hm₂
    rw [← hsame m₁ m₂ hm₁ hm₂]
    exact eq_zero_of_treeSpecBuildMain (a := a.lowDwords) (show 1 < a.draftTokenNum by omega) hstride hm hm₁
  · intro hone m₁ m₂ hm₁ hm₂
    ext w
    rw [hm₁.eq_run (within_launch (within_treeSpecBuild_of_single hone)),
      hm₂.eq_run (within_launch (within_buildDynamicTreeKernelPacked hstride)), launch, launch]
    split
    · rw [run_of_single hone hstride hm]
    · rfl

def oneLevel : TreeArgs := ⟨fun i => i - 1, fun i => i, 1, 1, 2, 1⟩

theorem treeSpecBuild_refines_iff_oneLevel : ¬ ∀ m₁ m₂, Leaves (launch oneLevel.treeSpecBuild 1) freshBuffers m₁ →
    Leaves (launch oneLevel.buildDynamicTreeKernelPacked 1) freshBuffers m₂ → m₁ = m₂ := by
  rw [treeSpecBuild_refines_iff oneLevel 1 ⟨by decide, by decide, by decide, by decide, by decide⟩ ?_ _ fresh_freshBuffers]
  · decide
  · intro bid hbid
    rw [Nat.lt_one_iff.1 hbid]
    refine ⟨fun i _ j _ heq => by simpa [selected, oneLevel] using heq, fun n hn => ?_⟩
    obtain rfl | rfl := Nat.le_one_iff_eq_zero_or_eq_one.1 (Nat.le_of_lt_succ hn)
    · exact ⟨0, by decide, .root⟩
    · exact ⟨1, by decide, .child ⟨by decide, by decide, rfl⟩ .root⟩

/-- The kernel leaves the mask rows 1 and 3; the shader leaves the second one empty. -/
theorem treeSpecBuild_differs :
    (∀ m', Leaves (launch oneLevel.buildDynamicTreeKernelPacked 1) freshBuffers m' →
      m' (.treeMask 0) = 1 ∧ m' (.treeMask 1) = 3) ∧
    ∀ m', Leaves (launch oneLevel.treeSpecBuild 1) freshBuffers m' → m' (.treeMask 1) = 0 := by
  constructor
  · intro m' h
    have hrun := h.eq_run (within_launch (within_buildDynamicTreeKernelPacked Nat.one_pos))
    rw [hrun, hrun]
    decide
  · exact fun m' h => eq_zero_of_treeSpecBuildMain (by decide) Nat.one_pos fresh_freshBuffers h

end TreeArgs

end TrtLlm.Kernels
