import TrtLlm.KvCache.RadixTree.DeadLeaves
import TrtLlm.KvCache.RadixTree.Runs

/-!
# Cleanup after a page is unlinked

`clear_stale_blocks_after_page_unlink` ends, without a failed assertion, and every leaf it takes out is dead: below a
full-attention or sink block without its page nothing can be reused, and in a block without the page of another life
cycle no match can end. Windows of a single token are the exception: at a block boundary they need no page.
-/

namespace TrtLlm.KvCache.RadixTree

open Option ReuseMatch Finset

variable {κ τ : Type} {p : TreeParams κ τ} {t t' : RadixTree κ τ}

/-! ### Parent links as a measure -/

def linked (t : RadixTree κ τ) : Finset BlockId := (range t.blocks.length).filter fun id => ((t.block? id).bind Block.prev).isSome

theorem mem_linked {id : BlockId} : id ∈ t.linked ↔ ∃ b parent, t.block? id = some b ∧ b.prev = some parent := by
  rw [linked, mem_filter, mem_range, isSome_iff_exists]
  constructor
  · intro ⟨_, parent, h⟩
    obtain ⟨b, hb, hprev⟩ := bind_eq_some_iff.1 h
    exact ⟨b, parent, hb, hprev⟩
  · intro ⟨b, parent, hb, hprev⟩
    exact ⟨lt_length_of_block? hb, parent, bind_eq_some_iff.2 ⟨b, hb, hprev⟩⟩

theorem length_blocks_eq (h : ∀ id, (t'.block? id).isSome = (t.block? id).isSome) : t'.blocks.length = t.blocks.length := by
  apply eq_of_forall_lt_iff
  intro id
  have hid : t'.blocks[id]?.isSome ↔ t.blocks[id]?.isSome := by rw [← block?, h, block?]
  rwa [isSome_getElem?, isSome_getElem?] at hid

theorem SameLinks.length_blocks (h : SameLinks t t') : t'.blocks.length = t.blocks.length := by
  apply length_blocks_eq
  intro id
  obtain ⟨f, hf⟩ := h.block id
  rw [hf, isSome_map]

theorem SameLinks.linked_eq (h : SameLinks t t') : t'.linked = t.linked := by
  ext id
  obtain ⟨f, hf⟩ := h.block id
  simp [mem_linked, hf]

variable {parent : ParentId} {lc : LifeCycleId} {lifeCycle : LifeCycle} {key : κ} {a c root : BlockId} {pruned : Bool}
  {b rb : Block κ τ}

theorem Below.sameLinks (h : SameLinks t t') (hbelow : t.Below a c) : t'.Below a c := by
  induction hbelow with
  | refl => exact .refl
  | @tail y z _ hstep ih =>
    obtain ⟨b, hb, hprev⟩ := hstep
    obtain ⟨f, hf⟩ := h.block z
    rw [hb] at hf
    exact ih.tail ⟨_, hf, hprev⟩

theorem Below.eq_or_prev (h : t.Below a c) (hb : t.block? c = some b) :
    c = a ∨ ∃ q, t.Below a q ∧ b.prev = some (.block q) := by
  refine (Relation.ReflTransGen.cases_tail h).imp_right fun ⟨q, habove, b', hb', hprev⟩ => ⟨q, habove, ?_⟩
  cases hb.symm.trans hb'
  exact hprev

variable [DecidableEq κ]

theorem Cut.length_blocks (hcut : Cut t parent key c pruned t') : t'.blocks.length = t.blocks.length := by
  apply length_blocks_eq
  intro id
  rw [hcut.block, isSome_map]

theorem Cut.card_linked_lt (hcut : Cut t parent key c pruned t') (hc : c ∈ t.linked) : t'.linked.card < t.linked.card := by
  apply card_lt_card
  refine ⟨fun id hid => ?_, fun hsub => ?_⟩
  · obtain ⟨b', prev, hb', hprev⟩ := mem_linked.1 hid
    obtain ⟨b, hb, hprev, -⟩ := hcut.of_prev hb' hprev
    exact mem_linked.2 ⟨b, prev, hb, hprev⟩
  · obtain ⟨b', prev, hb', hprev⟩ := mem_linked.1 (hsub hc)
    obtain ⟨b, hb, hprev, hne, -⟩ := hcut.of_prev hb' hprev
    exact hne rfl

theorem Below.cut {x : BlockId} (hcore : Core p t)
    (hcut : Cut t parent key x pruned t') (hbelow : t.Below a c) (hx : c < x) : t'.Below a c := by
  induction hbelow with
  | refl => exact .refl
  | @tail y z _ hstep ih =>
    obtain ⟨b, hb, hprev⟩ := hstep
    have hlt := hcore.older z b hb y hprev
    refine (ih (hlt.trans hx)).tail ⟨_, by rw [hcut.block, hb, map_some], ?_⟩
    rw [if_neg (ne_of_lt hx), hprev]

theorem Core.detach_leaf {t₁ : RadixTree κ τ} (hcore : Core p t)
    (h : SameLinks t t₁) (honly : ∀ id lc, id ≠ c → t₁.getPage id lc = t.getPage id lc)
    (hb : t.block? c = some b) (hleaf : b.next.entries = []) (hprev : b.prev = some parent) :
    ∃ t' pruned, t₁.detachNext parent b.key = some (t', some c) ∧ Cut t₁ parent b.key c pruned t' ∧ Core p t' ∧
      Drop t parent b.key c t' ∧ (∀ q, parent = .block q → q < c ∧ (t'.block? q).isSome) ∧ ∀ id x, t.block? id = some x → ∃ y, t'.block? id = some y ∧ y.ordinal = x.ordinal ∧
        (x.next.entries = [] → y.next.entries = []) ∧ (id = c → y.prev = none) := by
  obtain ⟨next, hnext, hlink⟩ := hcore.link c b hb parent hprev
  have hcore₁ := h.core hcore
  have hnext₁ := (h.nextOf_eq parent).trans hnext
  obtain ⟨t', hok⟩ := hcore₁.detachNext_eq_some hnext₁ b.key
  rw [hlink] at hok
  obtain ⟨next', hnext', ⟨-, -, hnone⟩ | ⟨child, pruned, hget, hchild, hcut⟩⟩ := detachNext_spec hok
  · cases hnone
  cases hchild
  refine ⟨t', pruned, hok, hcut, hcut.core hcore₁ hnext' hget, .of_detach h honly hb hleaf hok, ?_, ?_⟩
  · rintro q rfl
    obtain ⟨qb, hqb, -⟩ := map_eq_some_iff.1 hnext₁
    exact ⟨hcore.older c b hb q hprev, by rw [hcut.block, hqb]; rfl⟩
  intro id x hx
  obtain ⟨f, hf⟩ := h.block id
  have hid := hcut.block id
  rw [hf, hx] at hid
  refine ⟨_, hid, rfl, fun hnil => ?_, fun hc => if_pos hc⟩
  show (if parent = .block id then x.next.erase b.key else x.next).entries = []
  split
  · rw [Dict.entries_erase, hnil]
    rfl
  · exact hnil

variable [DecidableEq τ]

/-- What is left of the block whose page is missing once its subtree has been removed. -/
structure Removed (p : TreeParams κ τ) (lc : LifeCycleId) (root : BlockId) (t t' : RadixTree κ τ) : Prop where
  core : Core p t'
  kept : MatchesKept p t t'
  detached : ∃ b, t'.block? root = some b ∧ b.prev = none ∧ b.next.entries = []
  page : t'.getPage root lc = none
  length : t'.blocks.length = t.blocks.length

variable (hlc : p.lifeCycles[lc]? = some lifeCycle) (hpins : lifeCycle.pins rb.ordinal = true) (hcore : Core p t)

include hlc hpins hcore

/-- The loop of `remove_subtree` descends to a younger block or detaches one; it ends, and drops only dead leaves. -/
theorem removeSubtreeLoop_spec {fuel : Nat} {block : BlockId} {released : List PageRef} (hbelow : t.Below root block)
    (hblock : (t.block? block).isSome) (hroot : ∃ b, t.block? root = some b ∧ b.ordinal = rb.ordinal)
    (hpage : t.getPage root lc = none)
    (hfuel : t.linked.card * (t.blocks.length + 1) + (t.blocks.length - block) < fuel) :
    ∃ t' released', removeSubtreeLoop root fuel t block released = some (t', released') ∧ Removed p lc root t t' := by
  induction fuel generalizing t block released with
  | zero => omega
  | succ fuel ih =>
    obtain ⟨b, hb⟩ := isSome_iff_exists.1 hblock
    obtain ⟨rb', hrb', hord⟩ := hroot
    have hlt := lt_length_of_block? hb
    rw [removeSubtreeLoop, hb, bind_eq_bind, bind_some]
    cases hhead : b.next.values.head? with
    | some child =>
      obtain ⟨k, hk⟩ := Dict.mem_values_iff.1 (List.mem_of_mem_head? hhead)
      obtain ⟨cb, hcb, hprev, -⟩ := hcore.child (.block block) b.next (by rw [nextOf, hb]; rfl) k child hk
      have holder := hcore.older child cb hcb block hprev
      have hmeasure := Nat.sub_lt_sub_left hlt holder
      exact ih hcore (hbelow.tail ⟨cb, hcb, hprev⟩) (by rw [hcb]; rfl) ⟨rb', hrb', hord⟩ hpage (by omega)
    | none =>
      have hleaf : b.next.entries = [] := by simpa [Dict.values] using hhead
      have hpages := releasePages_sameLinks t block
      have honly : ∀ id l, id ≠ block → (t.releasePages block).1.getPage id l = t.getPage id l := by
        intro id l hid
        rw [getPage_releasePages, if_neg hid]
      have hrootPage : (t.releasePages block).1.getPage root lc = none := by
        rw [getPage_releasePages]
        split
        · rfl
        · exact hpage
      have habove := hbelow.eq_or_prev hb
      cases hprev : b.prev with
      | none =>
        obtain rfl : block = root := habove.resolve_right (by rintro ⟨q, _, hq⟩; cases hprev.symm.trans hq)
        obtain ⟨f, hf⟩ := hpages.block block
        rw [hb] at hf
        exact ⟨_, _, if_pos rfl, hpages.core hcore, matchesKept_of_unlinked hcore hpages honly hb hprev,
          ⟨_, hf, hprev, hleaf⟩, hrootPage, hpages.length_blocks⟩
      | some parent =>
        obtain ⟨t₂, pruned, hok, hcut, hcore₂, hdrop, holder, hafter⟩ := hcore.detach_leaf hpages honly hb hleaf hprev
        have hkept := hdrop.matchesKept hcore (dead_of_pinned hcore hlc hbelow hrb' (hord ▸ hpins) hpage)
        have hpage₂ : t₂.getPage root lc = none := (hcut.getPage_eq root lc).trans hrootPage
        have hlength : t₂.blocks.length = t.blocks.length := hcut.length_blocks.trans hpages.length_blocks
        obtain ⟨rb₂, hrb₂, hord₂, hleaf₂, hprev₂⟩ := hafter root rb' hrb'
        dsimp only
        rw [hok, bind_eq_bind, bind_some]
        rw [if_neg (not_not_intro rfl)]
        by_cases hself : block = root
        · subst hself
          rw [hb] at hrb'
          cases hrb'
          rw [if_pos rfl]
          exact ⟨_, _, rfl, hcore₂, hkept, ⟨rb₂, hrb₂, hprev₂ rfl, hleaf₂ hleaf⟩, hpage₂, hlength⟩
        · rw [if_neg hself]
          obtain ⟨q, habove, hprev'⟩ := habove.resolve_left hself
          cases hprev.symm.trans hprev'
          obtain ⟨hq, hexists⟩ := holder q rfl
          have hcard := hcut.card_linked_lt (by
            rw [hpages.linked_eq]
            exact mem_linked.2 ⟨b, _, hb, hprev⟩)
          rw [hpages.linked_eq] at hcard
          have hmeasure := Nat.mul_le_mul_right (t.blocks.length + 1) (hcard)
          rw [Nat.succ_mul] at hmeasure
          obtain ⟨t', released', hloop, hremoved⟩ := ih hcore₂
            (.cut (hpages.core hcore) hcut (.sameLinks hpages habove) hq) hexists
            ⟨rb₂, hrb₂, hord₂.trans hord⟩ hpage₂ (by rw [hlength]; omega)
          exact ⟨t', released', hloop, hremoved.core, hkept.trans hremoved.kept, hremoved.detached,
            hremoved.page, hremoved.length.trans hlength⟩

omit hlc hpins hcore

/-- The second loop of the cleanup goes up from leaf to parent; it ends, and drops only dead leaves. -/
theorem pruneUpwards_spec (hnodup : p.lifeCycles.Nodup) (hlc : p.lifeCycles[lc]? = some lifeCycle)
    (hkind : lifeCycle.EndsNeedPage) {n : Nat} {curr : BlockId} (hcore : Core p t) (hcurr : (t.block? curr).isSome)
    (hfuel : Nat.succ curr < n) : ∃ t', pruneUpwards lc n t (.block curr) = some t' ∧ MatchesKept p t t' := by
  induction n generalizing t curr with
  | zero => omega
  | succ n ih =>
    obtain ⟨b, hb⟩ := isSome_iff_exists.1 hcurr
    rw [pruneUpwards, hb, bind_eq_bind, bind_some]
    split
    · rename_i hcond
      obtain ⟨hpage, hleaf⟩ := hcond
      rw [isNone_iff_eq_none] at hpage
      cases hprev : b.prev with
      | none => exact ⟨t, rfl, .refl p t⟩
      | some parent =>
        obtain ⟨t₂, pruned, hok, -, hcore₂, hdrop, holder, -⟩ := hcore.detach_leaf (.refl t) (fun _ _ _ => rfl) hb hleaf hprev
        have hkept := hdrop.matchesKept hcore (dead_of_missing hnodup hlc hkind hpage)
        dsimp only
        rw [hok, bind_eq_bind, bind_some]
        rw [if_neg (not_not_intro rfl)]
        cases parent with
        | root r =>
          obtain ⟨m, rfl⟩ : ∃ m, n = m + 1 := ⟨n - 1, by omega⟩
          exact ⟨t₂, rfl, hkept⟩
        | block q =>
          obtain ⟨hq, hexists⟩ := holder q rfl
          obtain ⟨t', hloop, hkept'⟩ := ih hcore₂ hexists (lt_of_le_of_lt hq (Nat.lt_of_succ_lt_succ hfuel))
          exact ⟨t', hloop, hkept.trans hkept'⟩
    · exact ⟨t, rfl, .refl p t⟩

/-- Cleanup ends and keeps the matches, unless a window of one token lost the page of a block after the sinks. -/
theorem clearStaleBlocksAfterPageUnlink_spec {start : BlockId} (hnodup : p.lifeCycles.Nodup)
    (hlc : p.lifeCycles[lc]? = some lifeCycle) (hcore : Core p t) (h : t.block? start = some b)
    (hpage : t.getPage start lc = none) (hkind : lifeCycle.pins b.ordinal = true ∨ lifeCycle.EndsNeedPage) :
    ∃ t' released, t.clearStaleBlocksAfterPageUnlink start lc lifeCycle = some (t', released) ∧ MatchesKept p t t' := by
  have hlt := lt_length_of_block? h
  rw [clearStaleBlocksAfterPageUnlink, h, bind_eq_bind, bind_some, hpage]
  by_cases hpins : lifeCycle.pins b.ordinal = true
  · have hfuel : t.linked.card * (t.blocks.length + 1) + (t.blocks.length - start) < t.fuel := by
      have hle : t.linked.card ≤ t.blocks.length := (card_filter_le _ _).trans_eq (card_range _)
      have hcard := Nat.mul_le_mul_right (t.blocks.length + 1) hle
      rw [fuel, Nat.succ_mul]
      omega
    obtain ⟨t₁, released, hremove, hremoved⟩ :=
      removeSubtreeLoop_spec hlc hpins hcore .refl (by rw [h]; rfl) ⟨b, h, rfl⟩ hpage hfuel
    obtain ⟨b₁, hb₁, hprev₁, hleaf₁⟩ := hremoved.detached
    rw [if_pos hpins, removeSubtree, hremove, bind_eq_bind, bind_some]
    dsimp only
    refine ⟨t₁, released, ?_, hremoved.kept⟩
    -- the block has been detached already, so there is nothing to prune
    have hprune : pruneUpwards lc t₁.fuel t₁ (.block start) = some t₁ := by
      rw [fuel, Nat.succ_mul, ← add_assoc, pruneUpwards, hb₁, bind_eq_bind, bind_some,
        if_pos ⟨by rw [hremoved.page]; rfl, hleaf₁⟩, hprev₁]
    rw [hprune]
    rfl
  · have hends := hkind.resolve_left hpins
    have hfuel : .succ start < t.fuel := by
      have hle : .succ start ≤ t.blocks.length := hlt
      rw [fuel, Nat.succ_mul]
      omega
    obtain ⟨t', hprune, hkept⟩ := pruneUpwards_spec hnodup hlc hends hcore (by rw [h]; rfl) hfuel
    refine ⟨t', [], ?_, hkept⟩
    rw [if_neg hpins, bind_eq_bind, bind_some]
    dsimp only
    rw [hprune]
    rfl

/-- In every tree that its callers can build, unlinking a page and cleaning up leaves as much to reuse as unlinking
alone, and maybe more where partial blocks match. -/
theorem cleanup_keeps_matches (config : KVCacheManagerConfig) (p : TreeParams κ τ)
    (hregistry : lifeCycleRegistry config = some p.lifeCycles) (ops : List (Op κ τ)) (t : RadixTree κ τ)
    (hrun : Path (Step p) empty ops t) (start : BlockId) (b : Block κ τ) (hstart : t.block? start = some b)
    (lc : LifeCycleId) (lifeCycle : LifeCycle) (hlc : p.lifeCycles[lc]? = some lifeCycle) (page : PageRef)
    (hpage : t.getPage start lc = some page)
    (hwindow : ∀ attn, lifeCycle = .attn attn → attn.windowSize = some 1 → b.ordinal < attn.numSinkBlocks) :
    let unlinked := (t.unlinkPage start lc (some page.id)).1
    ∃ cleaned released,
      unlinked.clearStaleBlocksAfterPageUnlink start lc lifeCycle = some (cleaned, released) ∧
      ∀ scope tokens enablePartialMatch, ∃ before after,
        unlinked.reuseMatch p scope tokens enablePartialMatch = some before ∧
        cleaned.reuseMatch p scope tokens enablePartialMatch = some after ∧ before.numTokens ≤ after.numTokens ∧
        (enablePartialMatch = false → after.numTokens = before.numTokens) := by
  intro unlinked
  obtain ⟨hnodup, hpositive⟩ := lifeCycleRegistry_spec hregistry
  have hunlinked : unlinked = t.setPage start lc none := by
    simp [unlinked, unlinkPage, hpage]
  have hcore : Core p unlinked := by
    rw [hunlinked]
    exact (setPage_sameLinks t start lc none).core (Inv.of_path hrun).toCore
  have hgone : unlinked.getPage start lc = none := by
    rw [hunlinked, getPage, setPage, block?_modifyBlock, hstart]
    simp only [map_some, bind_some, if_true, List.getElem?_set_self']
    cases b.storage[lc]? <;> rfl
  obtain ⟨f, hf⟩ := (setPage_sameLinks t start lc none).block start
  rw [hstart, ← hunlinked] at hf
  apply clearStaleBlocksAfterPageUnlink_spec hnodup hlc hcore hf hgone
  -- a window of one token outside the sinks is the only life cycle left out
  cases lifeCycle with
  | ssm => exact .inr trivial
  | attn attn =>
    rw [LifeCycle.pins, Bool.or_eq_true, decide_eq_true_iff]
    cases hw : attn.windowSize with
    | none => exact .inl (.inl rfl)
    | some w =>
      have hpos := hpositive attn w (List.mem_of_getElem? hlc) hw
      by_cases hone : w = 1
      · exact .inl (.inr (hwindow attn rfl (by rw [hw, hone])))
      · exact .inr ⟨w, hw, by omega⟩

def spelled : TreeParams (List (List Nat)) Nat where
  rootKey := fun _ => []
  makeKey := fun key tokens => key ++ [tokens]
  tokensPerBlock := 3
  lifeCycles := [.attn ⟨none, 0⟩]

def oneLayer : KVCacheManagerConfig where
  tokensPerBlock := 3
  layers := [.attention ⟨0, [], none, none, by decide⟩]

def twoSiblings : List (Op (List (List Nat)) Nat) :=
  [.addOrGetExisting {}, .newBlock [1, 2, 9] (.root 0), .newBlock [1, 7, 7] (.root 0), .setPage 0 0 (some ⟨0, 3⟩),
    .setPage 1 0 (some ⟨1, 3⟩)]

theorem exists_twoSiblings : ∃ t, Path (Step spelled) empty twoSiblings t ∧
    (∃ b, t.block? 0 = some b ∧ t.getPage 0 0 = some ⟨0, 3⟩) ∧
    ((t.unlinkPage 0 0 (some 0)).1.reuseMatch spelled {} [1, 2, 3] true).map numTokens = some 0 ∧
    (((t.unlinkPage 0 0 (some 0)).1.clearStaleBlocksAfterPageUnlink 0 0 (.attn ⟨none, 0⟩)).bind fun cleaned =>
      cleaned.1.reuseMatch spelled {} [1, 2, 3] true).map numTokens = some 1 := by
  have hrun : Path (Step spelled) empty twoSiblings _ :=
    .cons rfl (.cons ⟨nofun, by decide, rfl⟩ (.cons ⟨nofun, by decide, rfl⟩ (.cons rfl (.cons rfl (.nil _)))))
  exact ⟨_, hrun, ⟨_, rfl, by decide +kernel⟩, by decide +kernel, by decide +kernel⟩

theorem cleanup_keeps_matches_twoSiblings : ∃ t cleaned released, Path (Step spelled) empty twoSiblings t ∧
    (t.unlinkPage 0 0 (some 0)).1.clearStaleBlocksAfterPageUnlink 0 0 (.attn ⟨none, 0⟩) = some (cleaned, released) ∧
    ∃ before after, (t.unlinkPage 0 0 (some 0)).1.reuseMatch spelled {} [1, 7, 7] false = some before ∧
      cleaned.reuseMatch spelled {} [1, 7, 7] false = some after ∧ after.numTokens = before.numTokens := by
  obtain ⟨t, hrun, ⟨b, hb, hpage⟩, -⟩ := exists_twoSiblings
  obtain ⟨cleaned, released, hclean, hkept⟩ := cleanup_keeps_matches oneLayer spelled rfl twoSiblings t hrun 0 b hb 0
    (.attn ⟨none, 0⟩) rfl ⟨0, 3⟩ hpage (by rintro attn ⟨⟩ ⟨⟩)
  obtain ⟨before, after, hbefore, hafter, -, heq⟩ := hkept {} [1, 7, 7] false
  exact ⟨t, cleaned, released, hrun, hclean, before, after, hbefore, hafter, heq rfl⟩

/-- The sibling that matches fewer tokens of the last block, but has its page, is found only once the other is gone. -/
theorem cleanup_lengthens_partial_match : ∃ t, lifeCycleRegistry oneLayer = some spelled.lifeCycles ∧
    Path (Step spelled) empty twoSiblings t ∧ t.getPage 0 0 = some ⟨0, 3⟩ ∧
    ((t.unlinkPage 0 0 (some 0)).1.reuseMatch spelled {} [1, 2, 3] true).map numTokens = some 0 ∧
    (((t.unlinkPage 0 0 (some 0)).1.clearStaleBlocksAfterPageUnlink 0 0 (.attn ⟨none, 0⟩)).bind fun cleaned =>
      cleaned.1.reuseMatch spelled {} [1, 2, 3] true).map numTokens = some 1 := by
  obtain ⟨t, hrun, ⟨-, -, hpage⟩, hbefore, hafter⟩ := exists_twoSiblings
  exact ⟨t, rfl, hrun, hpage, hbefore, hafter⟩

/-- A window of one token needs no page at a block boundary; the cleanup takes the block out all the same. -/
example :
    let p := { spelled with lifeCycles := [.attn ⟨none, 0⟩, .attn ⟨some 1, 0⟩] }
    let added : RadixTree (List (List Nat)) Nat := match (empty.addOrGetExisting p {}).1.newBlock p [1, 2, 3] (.root 0)
      with
      | .ok (t, _) => t
      | .error _ => empty
    let t := added.setPage 0 0 (some ⟨0, 3⟩)
    (t.reuseMatch p {} [1, 2, 3] false).map numTokens = some 3 ∧
      ((t.clearStaleBlocksAfterPageUnlink 0 1 (.attn ⟨some 1, 0⟩)).bind fun cleaned =>
        cleaned.1.reuseMatch p {} [1, 2, 3] false).map numTokens = some 0 := by
  decide +kernel

end TrtLlm.KvCache.RadixTree
