import TrtLlm.KvCache.RadixTree.Basic

/-!
# The structural invariant of the radix tree

Every fact is attached to a block's parent link, which removal cuts and never moves: a tree with fewer links has fewer
obligations. Removal needs one lemma, about cutting a single link (`detachNext_spec`); the loops above it are
inductions. Insertion breaks the prefix-freeness of siblings until the siblings that the new block covers are detached,
so that part is kept apart (`Core` and `Inv`).
-/

namespace TrtLlm.KvCache.RadixTree

open Option

variable {κ τ : Type} {p : TreeParams κ τ} {t t' : RadixTree κ τ}

theorem block?_modifyBlock (t : RadixTree κ τ) (i j : BlockId) (f : Block κ τ → Block κ τ) :
    (t.modifyBlock i f).block? j = (t.block? j).map fun b => if i = j then f b else b := by
  rw [block?, modifyBlock, List.getElem?_modify]
  rfl

variable (t)

@[simp] theorem root?_modifyBlock (i : BlockId) (f : Block κ τ → Block κ τ) (j : RootId) :
    (t.modifyBlock i f).root? j = t.root? j := rfl

@[simp] theorem next_modifyBlock (i : BlockId) (f : Block κ τ → Block κ τ) : (t.modifyBlock i f).next = t.next := rfl

theorem root?_modifyRoot (i j : RootId) (f : RootBlock κ → RootBlock κ) :
    (t.modifyRoot i f).root? j = (t.root? j).map fun r => if i = j then f r else r := by
  rw [root?, modifyRoot, List.getElem?_modify]
  rfl

variable (parent : ParentId) (next : Dict κ BlockId)

@[simp] theorem next_setNext : (t.setNext parent next).next = t.next := by
  cases parent <;> rfl

theorem block?_setNext (j : BlockId) :
    (t.setNext parent next).block? j =
      (t.block? j).map fun b => { b with next := if parent = .block j then next else b.next } := by
  cases parent with
  | root id => simp [setNext, modifyRoot, block?]
  | block id =>
    rw [setNext, block?_modifyBlock]
    by_cases hid : id = j <;> simp [hid]

theorem root?_setNext (j : RootId) :
    (t.setNext parent next).root? j = (t.root? j).map fun r => { r with next := if parent = .root j then next else r.next } := by
  cases parent with
  | root id =>
    rw [setNext, root?_modifyRoot]
    by_cases hid : id = j <;> simp [hid]
  | block id => simp [setNext]

/-- `t'` has the blocks of `t` with some links cut and pages changed. -/
def Shrinks (t t' : RadixTree κ τ) : Prop :=
  ∀ id b', t'.block? id = some b' → ∃ b, t.block? id = some b ∧ b'.key = b.key ∧ b'.tokens = b.tokens ∧
    b'.ordinal = b.ordinal ∧ ∀ parent, b'.prev = some parent → b.prev = some parent

theorem Shrinks.refl : Shrinks t t := fun _ b hb => ⟨b, hb, rfl, rfl, rfl, fun _ h => h⟩

theorem Shrinks.trans {t₁ t₂ t₃ : RadixTree κ τ} (h : Shrinks t₁ t₂) (h' : Shrinks t₂ t₃) : Shrinks t₁ t₃ := by
  intro id b₃ hb₃
  obtain ⟨b₂, hb₂, hkey', htokens', hord', hprev'⟩ := h' id b₃ hb₃
  obtain ⟨b₁, hb₁, hkey, htokens, hord, hprev⟩ := h id b₂ hb₂
  exact ⟨b₁, hb₁, hkey'.trans hkey, htokens'.trans htokens, hord'.trans hord, fun q hq => hprev q (hprev' q hq)⟩

/-- Siblings are blocks with the same parent link. No block's tokens begin a sibling's. -/
def Apart : Prop :=
  ∀ id b id' b', t.block? id = some b → t.block? id' = some b' → id ≠ id' →
    ∀ parent, b.prev = some parent → b'.prev = some parent → ¬ b.tokens <+: b'.tokens

variable {t}

theorem Apart.shrink (h : Apart t) (hshrink : Shrinks t t') : Apart t' := by
  intro id b id' b' hb hb' hne parent hparent hparent'
  obtain ⟨c, hc, -, htokens, -, hprev⟩ := hshrink id b hb
  obtain ⟨c', hc', -, htokens', -, hprev'⟩ := hshrink id' b' hb'
  rw [htokens, htokens']
  exact h id c id' c' hc hc' hne parent (hprev parent hparent) (hprev' parent hparent')

/-- `t'` differs from `t` in the pages of its blocks only. -/
structure SameLinks (t t' : RadixTree κ τ) : Prop where
  block : ∀ id, ∃ f : Block κ τ → List (Option PageRef), t'.block? id = (t.block? id).map fun b => { b with storage := f b }
  root : ∀ id, t'.root? id = t.root? id
  next : t'.next = t.next

namespace SameLinks

theorem refl (t : RadixTree κ τ) : SameLinks t t where
  block := fun _ => ⟨Block.storage, by simp⟩
  root := fun _ => rfl
  next := rfl

theorem trans {t₁ t₂ t₃ : RadixTree κ τ} (h : SameLinks t₁ t₂) (h' : SameLinks t₂ t₃) : SameLinks t₁ t₃ where
  block := by
    intro id
    obtain ⟨f, hf⟩ := h.block id
    obtain ⟨g, hg⟩ := h'.block id
    exact ⟨fun b => g { b with storage := f b }, by rw [hg, hf, map_map]; rfl⟩
  root := fun id => (h'.root id).trans (h.root id)
  next := h'.next.trans h.next

theorem modifyBlock (t : RadixTree κ τ) (id : BlockId) (f : Block κ τ → List (Option PageRef)) :
    SameLinks t (t.modifyBlock id fun b => { b with storage := f b }) where
  block := by
    intro j
    rw [block?_modifyBlock]
    by_cases hj : id = j
    · exact ⟨f, by simp [hj]⟩
    · exact ⟨Block.storage, by simp [hj]⟩
  root := fun _ => rfl
  next := rfl

variable (h : SameLinks t t')

include h

theorem nextOf_eq (q : ParentId) : t'.nextOf q = t.nextOf q := by
  cases q with
  | root id => rw [nextOf, nextOf, h.root]
  | block id =>
    obtain ⟨f, hf⟩ := h.block id
    rw [nextOf, hf, map_map]
    rfl

theorem labels_eq (q : ParentId) : t'.keyOf q = t.keyOf q ∧ t'.childOrdinal q = t.childOrdinal q := by
  cases q with
  | root id => simp only [keyOf, childOrdinal, h.root, and_self]
  | block id =>
    obtain ⟨f, hf⟩ := h.block id
    simp only [keyOf, childOrdinal, hf, map_map]
    exact ⟨rfl, rfl⟩

theorem of_block {id : BlockId} {b' : Block κ τ} (hb' : t'.block? id = some b') :
    ∃ b storage, t.block? id = some b ∧ b' = { b with storage } := by
  obtain ⟨f, hf⟩ := h.block id
  rw [hf] at hb'
  obtain ⟨b, hb, rfl⟩ := map_eq_some_iff.1 hb'
  exact ⟨b, f b, hb, rfl⟩

theorem shrinks : Shrinks t t' := by
  intro id b' hb'
  obtain ⟨b, _, hb, rfl⟩ := h.of_block hb'
  exact ⟨b, hb, rfl, rfl, rfl, fun _ hq => hq⟩

end SameLinks

variable (t)

theorem setPage_sameLinks (id : BlockId) (lc : LifeCycleId) (page : Option PageRef) :
    SameLinks t (t.setPage id lc page) := .modifyBlock t id fun b => b.storage.set lc page

theorem releasePages_sameLinks (id : BlockId) : SameLinks t (t.releasePages id).1 :=
  .modifyBlock t id fun b => b.storage.map fun _ => none

theorem adoptPagesFrom_sameLinks (numLifeCycles : Nat) (self other : BlockId) :
    SameLinks t (t.adoptPagesFrom numLifeCycles self other) := by
  unfold adoptPagesFrom
  generalize List.range numLifeCycles = lcs
  induction lcs generalizing t with
  | nil => exact .refl t
  | cons lc lcs ih =>
    refine .trans ?_ (ih _)
    unfold adoptPage
    split
    · exact .refl t
    · split
      · exact (setPage_sameLinks t other lc none).trans (setPage_sameLinks _ self lc _)
      · exact .refl t

variable [DecidableEq κ]

/-- Child maps and parent links agree, and every link is labelled as the source computes it. -/
structure Core (p : TreeParams κ τ) (t : RadixTree κ τ) : Prop where
  child : ∀ parent next, t.nextOf parent = some next → ∀ k c, next.get? k = some c →
    ∃ b, t.block? c = some b ∧ b.prev = some parent ∧ b.key = k
  link : ∀ id b, t.block? id = some b → ∀ parent, b.prev = some parent →
    ∃ next, t.nextOf parent = some next ∧ next.get? b.key = some id
  key : ∀ id b, t.block? id = some b → ∀ parent, b.prev = some parent →
    ∃ prevKey, t.keyOf parent = some prevKey ∧ b.key = p.makeKey prevKey b.tokens
  ordinal : ∀ id b, t.block? id = some b → ∀ parent, b.prev = some parent → t.childOrdinal parent = some b.ordinal
  older : ∀ id b, t.block? id = some b → ∀ q, b.prev = some (.block q) → q < id
  full : ∀ id b, t.block? id = some b → b.next.entries ≠ [] → b.tokens.length = p.tokensPerBlock
  short : ∀ id b, t.block? id = some b → b.tokens.length ≤ p.tokensPerBlock
  root : ∀ k r, t.next.get? k = some r → ∃ root, t.root? r = some root ∧ root.key = k ∧ root.attached = true
  attached : ∀ r root, t.root? r = some root → root.attached = true → t.next.get? root.key = some r
  rootKey : ∀ r root, t.root? r = some root → root.key = p.rootKey root.reuseScope

structure Inv (p : TreeParams κ τ) (t : RadixTree κ τ) : Prop extends Core p t where
  apart : Apart t

/-- What `detach_next` does: the child loses its parent link and the parent its entry; `pruned`: the parent was a root
block, which, left without children, leaves the tree. -/
structure Cut (key : κ) (child : BlockId) (pruned : Bool) (t' : RadixTree κ τ) : Prop where
  block : ∀ id, t'.block? id = (t.block? id).map fun b => { b with
    prev := if id = child then none else b.prev
    next := if parent = .block id then b.next.erase key else b.next }
  root : ∀ id, t'.root? id = (t.root? id).map fun r => { r with
    next := if parent = .root id then r.next.erase key else r.next
    attached := r.attached && !(pruned && decide (parent = .root id)) }
  next_eq : pruned = false → t'.next = t.next
  next_erase : pruned = true → ∃ id r, parent = .root id ∧ t.root? id = some r ∧ t.next.get? r.key = some id ∧
    t'.next = t.next.erase r.key ∧ (r.next.erase key).entries = []

variable {parent : ParentId} {n : Nat} {released : List PageRef} {detached : Option BlockId} {lc : LifeCycleId} {t}

theorem detachNext_spec {key : κ} (h : t.detachNext parent key = some (t', detached)) :
    ∃ next, t.nextOf parent = some next ∧
      ((next.get? key = none ∧ t' = t ∧ detached = none) ∨
        ∃ child pruned, next.get? key = some child ∧ detached = some child ∧ Cut t parent key child pruned t') := by
  obtain ⟨next, hnext, h⟩ := bind_eq_some_iff.1 h
  refine ⟨next, hnext, ?_⟩
  split at h
  · rename_i hget
    cases h
    exact .inl ⟨hget, rfl, rfl⟩
  · rename_i child hget
    right
    have hblock : ∀ id, ((t.setNext parent (next.erase key)).modifyBlock child ({ · with prev := none })).block? id =
        (t.block? id).map fun b => { b with
          prev := if id = child then none else b.prev
          next := if parent = .block id then b.next.erase key else b.next } := by
      intro id
      rw [block?_modifyBlock, block?_setNext]
      cases hb : t.block? id with
      | none => rfl
      | some b =>
        have hsame : parent = .block id → next = b.next := by
          intro hp
          rw [hp, nextOf, hb] at hnext
          exact (some.inj hnext).symm
        by_cases hp : parent = .block id <;> by_cases hc : child = id
        · simp [hc, hsame hp]
        · simp [hc, hsame hp, Ne.symm hc]
        · simp [hp, hc]
        · simp [hp, hc, Ne.symm hc]
    have hroot : ∀ id, ((t.setNext parent (next.erase key)).modifyBlock child ({ · with prev := none })).root? id =
        (t.root? id).map fun r => { r with next := if parent = .root id then r.next.erase key else r.next } := by
      intro id
      rw [root?_modifyBlock, root?_setNext]
      cases hr : t.root? id with
      | none => rfl
      | some r =>
        have hsame : parent = .root id → next = r.next := by
          intro hp
          rw [hp, nextOf, hr] at hnext
          exact (some.inj hnext).symm
        by_cases hp : parent = .root id
        · simp [hsame hp]
        · simp [hp]
    cases parent with
    | block q =>
      cases h
      refine ⟨child, false, hget, rfl, hblock, fun id => ?_, fun _ => next_setNext _ _ _, nofun⟩
      rw [hroot]
      simp
    | root q =>
      obtain ⟨root, hq, h⟩ := bind_eq_some_iff.1 h
      have hq' := hq
      rw [hroot] at hq'
      obtain ⟨r, hr, hsame⟩ := map_eq_some_iff.1 hq'
      have hkey : root.key = r.key := by rw [← hsame]
      split at h
      · split at h
        · rename_i hcond hself
          cases h
          refine ⟨child, true, hget, rfl, hblock, fun id => ?_, (nofun), fun _ => ?_⟩
          · rw [root?_modifyRoot]
            rw [show ∀ n, RadixTree.root? { (t.setNext (.root q) (next.erase key)).modifyBlock child
              ({ · with prev := none }) with next := n } id = _ from fun _ => hroot id]
            rw [map_map]
            congr 1
            funext r
            by_cases hid : q = id <;> simp [hid]
          · rw [hkey] at hself
            rw [nextOf, hr] at hnext
            cases hnext
            exact ⟨q, r, rfl, hr, hself, by rw [← hkey]; rfl, hcond.1⟩
        · cases h
      · cases h
        refine ⟨child, false, hget, rfl, hblock, fun id => ?_, fun _ => next_setNext _ _ _, nofun⟩
        rw [hroot]
        simp

/-- The assertion of `detach_next` holds: an attached root block is in the tree under its key. -/
theorem Core.detachNext_eq_some {next : Dict κ BlockId} (hcore : Core p t)
    (hnext : t.nextOf parent = some next) (key : κ) : ∃ t', t.detachNext parent key = some (t', next.get? key) := by
  rw [detachNext, hnext]
  cases hget : next.get? key with
  | none => exact ⟨t, by simp [hget]⟩
  | some child =>
    cases parent with
    | block id => exact ⟨_, by simp [hget]; rfl⟩
    | root id =>
      obtain ⟨r, hr, -⟩ := map_eq_some_iff.1 hnext
      have hr' : ((t.setNext (.root id) (next.erase key)).modifyBlock child ({ · with prev := none })).root? id =
          some { r with next := next.erase key } := by
        rw [root?_modifyBlock, root?_setNext, hr, map_some, if_pos rfl]
      simp only [bind_eq_bind, bind_some, hget, hr', next_modifyBlock, next_setNext]
      by_cases hprune : (next.erase key).entries = [] ∧ r.attached ∧ (t.next.get? r.key).isSome
      · rw [if_pos hprune, if_pos (hcore.attached id r hr hprune.2.1)]
        exact ⟨_, rfl⟩
      · rw [if_neg hprune]
        exact ⟨_, rfl⟩

namespace Cut

variable {parent : ParentId} {key : κ} {child : BlockId} {pruned : Bool} (hcut : Cut t parent key child pruned t')

include hcut

theorem nextOf_eq (q : ParentId) : t'.nextOf q = (t.nextOf q).map fun next => if parent = q then next.erase key else next := by
  cases q with
  | root id => rw [nextOf, nextOf, hcut.root, map_map, map_map]; rfl
  | block id => rw [nextOf, nextOf, hcut.block, map_map, map_map]; rfl

theorem labels_eq (q : ParentId) : t'.keyOf q = t.keyOf q ∧ t'.childOrdinal q = t.childOrdinal q := by
  cases q <;> simp [keyOf, childOrdinal, hcut.root, hcut.block, Function.comp_def]

theorem of_prev {id : BlockId} {b' : Block κ τ} {q : ParentId} (hb' : t'.block? id = some b') (h : b'.prev = some q) :
    ∃ b, t.block? id = some b ∧ b.prev = some q ∧ id ≠ child ∧ b'.key = b.key ∧ b'.tokens = b.tokens ∧
      b'.ordinal = b.ordinal := by
  rw [hcut.block] at hb'
  obtain ⟨b, hb, rfl⟩ := map_eq_some_iff.1 hb'
  by_cases hid : id = child
  · rw [if_pos hid] at h
    cases h
  · rw [if_neg hid] at h
    exact ⟨b, hb, h, hid, rfl, rfl, rfl⟩

theorem shrinks : Shrinks t t' := by
  intro id b' hb'
  have hold := hb'
  rw [hcut.block] at hold
  obtain ⟨b, hb, rfl⟩ := map_eq_some_iff.1 hold
  refine ⟨b, hb, rfl, rfl, rfl, fun q hq => ?_⟩
  obtain ⟨c, hc, hprev, -⟩ := hcut.of_prev hb' hq
  rw [hb] at hc
  cases hc
  exact hprev

theorem core (hcore : Core p t) {next : Dict κ BlockId} (hnext : t.nextOf parent = some next)
    (hget : next.get? key = some child) : Core p t' where
  child := by
    intro q next' hnext' k c hc
    rw [hcut.nextOf_eq] at hnext'
    obtain ⟨n, hn, rfl⟩ := map_eq_some_iff.1 hnext'
    obtain ⟨hne, hc⟩ : ¬ (parent = q ∧ k = key) ∧ n.get? k = some c := by
      split at hc
      · rw [Dict.get?_erase] at hc
        split at hc
        · cases hc
        · rename_i hk
          exact ⟨fun h => hk h.2, hc⟩
      · rename_i hq
        exact ⟨fun h => hq h.1, hc⟩
    obtain ⟨b, hb, hprev, hkey⟩ := hcore.child q n hn k c hc
    -- the entry of the detached child was erased, so this one is another block's
    have hother : c ≠ child := by
      intro h
      subst h
      obtain ⟨b', hb', hprev', hkey'⟩ := hcore.child parent next hnext key c hget
      rw [hb] at hb'
      cases hb'
      rw [hprev] at hprev'
      cases hprev'
      exact hne ⟨rfl, hkey.symm.trans hkey'⟩
    have hb' := hcut.block c
    rw [hb] at hb'
    refine ⟨_, hb', ?_, hkey⟩
    show (if c = child then none else b.prev) = some q
    rw [if_neg hother, hprev]
  link := by
    intro id b' hb' q hq
    obtain ⟨b, hb, hprev, hid, hkey, -⟩ := hcut.of_prev hb' hq
    obtain ⟨n, hn, hlink⟩ := hcore.link id b hb q hprev
    refine ⟨_, by rw [hcut.nextOf_eq, hn]; rfl, ?_⟩
    rw [hkey]
    split
    · rename_i hparent
      subst hparent
      rw [hnext] at hn
      cases hn
      rw [Dict.get?_erase, if_neg ?_]
      · exact hlink
      · intro h
        rw [h, hget] at hlink
        exact hid (some.inj hlink).symm
    · exact hlink
  key := by
    intro id b' hb' q hq
    obtain ⟨b, hb, hprev, -, hkey, htokens, -⟩ := hcut.of_prev hb' hq
    rw [(hcut.labels_eq q).1, hkey, htokens]
    exact hcore.key id b hb q hprev
  ordinal := by
    intro id b' hb' q hq
    obtain ⟨b, hb, hprev, -, -, -, hordinal⟩ := hcut.of_prev hb' hq
    rw [(hcut.labels_eq q).2, hordinal]
    exact hcore.ordinal id b hb q hprev
  older := by
    intro id b' hb' q hq
    obtain ⟨b, hb, hprev, -⟩ := hcut.of_prev hb' hq
    exact hcore.older id b hb q hprev
  full := by
    intro id b' hb' hentries
    rw [hcut.block] at hb'
    obtain ⟨b, hb, rfl⟩ := map_eq_some_iff.1 hb'
    apply hcore.full id b hb
    intro hnil
    apply hentries
    show (if parent = .block id then b.next.erase key else b.next).entries = []
    split
    · rw [Dict.entries_erase, hnil]
      rfl
    · exact hnil
  short := by
    intro id b' hb'
    rw [hcut.block] at hb'
    obtain ⟨b, hb, rfl⟩ := map_eq_some_iff.1 hb'
    exact hcore.short id b hb
  root := by
    intro k r hr
    cases hpruned : pruned with
    | false =>
      rw [hcut.next_eq hpruned] at hr
      obtain ⟨root, hroot, hkey, hattached⟩ := hcore.root k r hr
      have hroot' := hcut.root r
      rw [hroot] at hroot'
      refine ⟨_, hroot', hkey, ?_⟩
      simp [hattached, hpruned]
    | true =>
      obtain ⟨id, gone, hparent, hgone, -, hnext', -⟩ := hcut.next_erase hpruned
      rw [hnext', Dict.get?_erase] at hr
      split at hr
      · cases hr
      rename_i hk
      obtain ⟨root, hroot, hkey, hattached⟩ := hcore.root k r hr
      have hroot' := hcut.root r
      rw [hroot] at hroot'
      refine ⟨_, hroot', hkey, ?_⟩
      have hid : id ≠ r := by
        intro h
        rw [h, hroot] at hgone
        cases hgone
        exact hk hkey.symm
      simp [hattached, hparent, hid]
  attached := by
    intro r root' hroot' hattached'
    rw [hcut.root] at hroot'
    obtain ⟨root, hroot, rfl⟩ := map_eq_some_iff.1 hroot'
    obtain ⟨hattached, hkept⟩ := Bool.and_eq_true_iff.1 hattached'
    have hself := hcore.attached r root hroot hattached
    cases hpruned : pruned with
    | false =>
      rw [hcut.next_eq hpruned]
      exact hself
    | true =>
      obtain ⟨id, gone, hparent, hgone, hgoneSelf, hnext', -⟩ := hcut.next_erase hpruned
      rw [hnext', Dict.get?_erase, if_neg ?_]
      · exact hself
      intro h
      have hid : r = id := by
        have h' : root.key = gone.key := h
        rw [h', hgoneSelf] at hself
        exact (some.inj hself).symm
      simp [hpruned, hparent, hid] at hkept
  rootKey := by
    intro r root' hroot'
    rw [hcut.root] at hroot'
    obtain ⟨root, hroot, rfl⟩ := map_eq_some_iff.1 hroot'
    exact hcore.rootKey r root hroot

end Cut

theorem SameLinks.core (h : SameLinks t t') (hcore : Core p t) : Core p t' where
  child := by
    intro q next hnext k c hc
    rw [h.nextOf_eq] at hnext
    obtain ⟨b, hb, hprev, hkey⟩ := hcore.child q next hnext k c hc
    obtain ⟨f, hf⟩ := h.block c
    rw [hb] at hf
    exact ⟨_, hf, hprev, hkey⟩
  link := by
    intro id b' hb' q hq
    obtain ⟨b, _, hb, rfl⟩ := h.of_block hb'
    rw [h.nextOf_eq]
    exact hcore.link id b hb q hq
  key := by
    intro id b' hb' q hq
    obtain ⟨b, _, hb, rfl⟩ := h.of_block hb'
    rw [(h.labels_eq q).1]
    exact hcore.key id b hb q hq
  ordinal := by
    intro id b' hb' q hq
    obtain ⟨b, _, hb, rfl⟩ := h.of_block hb'
    rw [(h.labels_eq q).2]
    exact hcore.ordinal id b hb q hq
  older := by
    intro id b' hb' q hq
    obtain ⟨b, _, hb, rfl⟩ := h.of_block hb'
    exact hcore.older id b hb q hq
  full := by
    intro id b' hb' hentries
    obtain ⟨b, _, hb, rfl⟩ := h.of_block hb'
    exact hcore.full id b hb hentries
  short := by
    intro id b' hb'
    obtain ⟨b, _, hb, rfl⟩ := h.of_block hb'
    exact hcore.short id b hb
  root := by
    intro k r hr
    rw [h.next] at hr
    obtain ⟨root, hroot, hkey⟩ := hcore.root k r hr
    exact ⟨root, by rw [h.root, hroot], hkey⟩
  attached := by
    intro r root hroot hattached
    rw [h.root] at hroot
    rw [h.next]
    exact hcore.attached r root hroot hattached
  rootKey := by
    intro r root hroot
    rw [h.root] at hroot
    exact hcore.rootKey r root hroot

/-- One step of removal: pages change, or a child is detached. -/
def RemovalStep (t t' : RadixTree κ τ) : Prop :=
  SameLinks t t' ∨ ∃ parent key detached, t.detachNext parent key = some (t', detached)

/-- What the loops that take blocks out of the tree are made of. -/
def Removal : RadixTree κ τ → RadixTree κ τ → Prop := Relation.ReflTransGen RemovalStep

theorem Removal.pages (h : SameLinks t t') : Removal t t' := .single (.inl h)

theorem Removal.detach {key : κ} (hok : t.detachNext parent key = some (t', detached)) : Removal t t' :=
  .single (.inr ⟨parent, key, detached, hok⟩)

theorem RemovalStep.core (hstep : RemovalStep t t') (h : Core p t) : Core p t' := by
  obtain hpages | ⟨parent, key, detached, hok⟩ := hstep
  · exact hpages.core h
  · obtain ⟨next, hnext, ⟨-, rfl, -⟩ | ⟨child, pruned, hget, -, hcut⟩⟩ := detachNext_spec hok
    · exact h
    · exact hcut.core h hnext hget

theorem RemovalStep.shrinks (hstep : RemovalStep t t') : Shrinks t t' := by
  obtain hpages | ⟨parent, key, detached, hok⟩ := hstep
  · exact hpages.shrinks
  · obtain ⟨next, hnext, ⟨-, rfl, -⟩ | ⟨child, pruned, hget, -, hcut⟩⟩ := detachNext_spec hok
    · exact .refl _
    · exact hcut.shrinks

theorem Removal.core (h : Removal t t') (hcore : Core p t) : Core p t' := by
  induction h with
  | refl => exact hcore
  | tail _ hstep ih => exact hstep.core ih

theorem Removal.shrinks (h : Removal t t') : Shrinks t t' := by
  induction h with
  | refl => exact .refl t
  | tail _ hstep ih => exact ih.trans hstep.shrinks

theorem Removal.inv (h : Removal t t') (hinv : Inv p t) : Inv p t' := ⟨h.core hinv.toCore, hinv.apart.shrink h.shrinks⟩

theorem removeSubtreeLoop_removal {root : BlockId} {block : BlockId} {released' : List PageRef}
    (h : removeSubtreeLoop root n t block released = some (t', released')) : Removal t t' := by
  induction n generalizing t block released with
  | zero => cases h
  | succ n ih =>
    obtain ⟨b, -, h⟩ := bind_eq_some_iff.1 h
    dsimp only at h
    split at h
    · exact ih h
    have hpages : Removal t (t.releasePages block).1 := .pages (releasePages_sameLinks t block)
    split at h
    · split at h
      · cases h
        exact hpages
      · cases h
    · obtain ⟨⟨t₁, detached⟩, hdetach, h⟩ := bind_eq_some_iff.1 h
      have hcut := hpages.trans (Removal.detach hdetach)
      split at h
      · cases h
      split at h
      · cases h
        exact hcut
      · split at h
        · cases h
        · exact hcut.trans (ih h)

theorem removeSubtree_removal {root : BlockId}
    (hok : t.removeSubtree root = some (t', released)) : Removal t t' := removeSubtreeLoop_removal hok

theorem pruneUpwards_removal {curr : ParentId} (h : pruneUpwards lc n t curr = some t') : Removal t t' := by
  induction n generalizing t curr with
  | zero => cases curr <;> cases h
  | succ n ih =>
    cases curr with
    | root id =>
      cases h
      exact .refl
    | block id =>
      obtain ⟨b, -, h⟩ := bind_eq_some_iff.1 h
      dsimp only at h
      split at h
      · split at h
        · cases h
          exact .refl
        · obtain ⟨⟨t₁, detached⟩, hdetach, h⟩ := bind_eq_some_iff.1 h
          split at h
          · cases h
          · exact (Removal.detach hdetach).trans (ih h)
      · cases h
        exact .refl

theorem clearRoot_removal {root : RootId} (h : clearRoot root n t = some t') : Removal t t' := by
  induction n generalizing t with
  | zero => cases h
  | succ n ih =>
    obtain ⟨next, -, h⟩ := bind_eq_some_iff.1 h
    split at h
    · cases h
      exact .refl
    · obtain ⟨⟨t₁, released⟩, hremove, h⟩ := bind_eq_some_iff.1 h
      exact (removeSubtree_removal hremove).trans (ih h)

theorem clear_removal (h : t.clear = some t') : Removal t t' := by
  unfold clear at h
  generalize t.roots.length + 1 = n at h
  induction n generalizing t with
  | zero => cases h
  | succ n ih =>
    unfold clearLoop at h
    split at h
    · cases h
      exact .refl
    · obtain ⟨t₁, hroot, h⟩ := bind_eq_some_iff.1 h
      exact (clearRoot_removal hroot).trans (ih h)

end TrtLlm.KvCache.RadixTree
