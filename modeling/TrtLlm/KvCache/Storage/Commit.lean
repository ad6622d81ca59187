import TrtLlm.KvCache.Storage.Keeps

/-!
# New pages and commits

A new page takes a slot that its maker has. Committing a page moves its slot to a new page, which gets a place in a
block of the tree; the page that was there before is superseded. If that page is held above the last level, it leaves
a queue it should be in.
-/

namespace TrtLlm.KvCache.StorageParams

open Option

variable {T : Type} {P : StorageParams T} {s : Storage T} {p : Page} {id : PageId} {old : Option PageId} (h : P.Inv s)

include h

theorem Inv.addPage (hlevel : p.cacheLevel < P.numCacheLevels)
    (hloose : Loose P s p.cacheLevel (P.poolGroup p) p.slot.slotId) (hnode : p.nodeRef = false) :
    P.Inv { s with nextPage := s.nextPage + 1, page := (s.setPage s.nextPage (some p)).page } := by
  exact h.insert (h.fresh _ le_rfl) (Nat.le_succ _) (Nat.lt_succ_self _) hlevel hloose hnode

variable {lc : Nat} {slot : Slot}

def displaces (P : StorageParams T) (s : Storage T) (superseded : Option PageId) : Bool :=
  (superseded.bind s.page).any fun p => p.status = .held ∧ p.cacheLevel + 1 < P.numCacheLevels

/-- What superseding a page does to the others: one that is not queued may leave its block and nothing else. -/
structure Superseded (P : StorageParams T) (superseded : Option PageId) (s t : Storage T) : Prop where
  kept : Kept P s t
  births : ∀ {id q}, t.page id = some q → ∃ p, s.page id = some p ∧ q.status = p.status ∧ q.cacheLevel = p.cacheLevel
  stays : ∀ {id p}, superseded ≠ some id → s.page id = some p → p.nodeRef = false → ∃ b, t.page id = some { p with block := b }
  queued : P.displaces s superseded = false → ∀ X, P.Complete X s → P.Complete X t

theorem supersede_spec (hp : s.page id = some p) : ∃ t, P.supersede id p s = .ok ⟨⟩ t ∧ Superseded P (some id) s t := by
  obtain ⟨u, hu, hinv, hpool, hpage⟩ := excludeIfQueued_rewrite h hp (q := { p with block := none }) rfl rfl rfl
  have hpu : u.page id = some { p with block := none, nodeRef := false } := by rw [hpage, page_setPage_eq]
  obtain ⟨t, ht, hend, hshed, hgone⟩ := dropRef_spec hinv id
  refine ⟨t, ?_, (Kept.of_pool hinv hpool).trans (.of_shed hend hshed), fun {i r} hr => ?_,
    fun {i q} hne hq hnode => ?_, fun hheld X hcomplete => ?_⟩
  · rw [supersede, modify_bind_apply, bind_ok hu, ht]
  · obtain ⟨q, hq, hsame⟩ := hshed.births hr
    rw [hpage] at hq
    rcases page_setPage_some hq with ⟨rfl, ⟨⟩⟩ | ⟨_, hq⟩
    · exact ⟨p, hp, by rw [hsame]; rfl, by rw [hsame]⟩
    · exact ⟨q, hq, by rw [hsame]; rfl, by rw [hsame]⟩
  · have hi : i ≠ id := fun heq => hne (heq ▸ rfl)
    refine hshed.stay ?_ hnode hi
    rw [hpage, page_setPage, if_neg hi, hq]
  · have hu : P.Complete (fun i => X i ∨ i = id) u := (hcomplete.mono fun _ => .inl).rewrite hpage fun hX => absurd (.inr rfl) hX
    refine (hu.shed hshed).fill fun q hq hneeds => ?_
    -- Droppable pages have ended, and held ones are at the last level.
    exfalso
    by_cases hdrop : p.status = .droppable
    · rw [(hgone _ hpu hdrop rfl).1] at hq
      cases hq
    rw [displaces, bind_some, hp, any_some, decide_eq_false_iff_not] at hheld
    rw [hshed.same hpu hq] at hneeds
    rcases hneeds with hevictable | hstatus
    · rcases of_decide_eq_true hevictable with hstatus | hstatus
      · exact hdrop hstatus.1
      · exact hheld hstatus
    · exact hdrop hstatus

theorem Kept.setTree (tree : T) : Kept P s { s with tree := tree } := .of_pool (h.setTree tree) rfl

theorem replacePage_spec (tree : T) (old : Option PageId) :
    ∃ t, P.replacePage tree old s = .ok ⟨⟩ t ∧ Superseded P old s t := by
  cases hfound : old.bind fun id => (s.page id).map (id, ·) with
  | none =>
    refine ⟨{ s with tree := tree }, by rw [replacePage, hfound], .setTree h tree, fun {id p} hp => ⟨p, hp, rfl, rfl⟩,
      fun {id p} _ hp _ => ?_, fun _ X hcomplete => hcomplete⟩
    exact ⟨p.block, hp⟩
  | some found =>
    obtain ⟨id, hid, hpage⟩ := bind_eq_some_iff.1 hfound
    obtain ⟨p, hp, rfl⟩ := map_eq_some_iff.1 hpage
    obtain ⟨t, ht, hsuperseded⟩ := supersede_spec (h.setTree tree) hp
    refine ⟨t, by rw [replacePage, hfound]; exact ht, ?_⟩
    rw [hid]
    exact ⟨(Kept.setTree h tree).trans hsuperseded.kept, hsuperseded.births, hsuperseded.stays, hsuperseded.queued⟩

omit h

theorem displaces_congr {t : Storage T} (hsame : ∀ j, old = some j → t.page j = s.page j) :
    P.displaces t old = P.displaces s old := by
  cases old with
  | none => rfl
  | some j => exact congrArg (Option.any _) (hsame j rfl)

/-- A page is made in a slot that its maker has, and gets its place in a block. -/
theorem addPage_replace (h : P.Inv s) (new : Page) (hlevel : new.cacheLevel < P.numCacheLevels)
    (hloose : Loose P s new.cacheLevel (P.poolGroup new) new.slot.slotId) (hnode : new.nodeRef = false) (tree : T)
    (halive : ∀ j, old = some j → s.page j ≠ none) :
    ∃ t b, P.replacePage tree old { s with
        nextPage := s.nextPage + 1, page := (s.setPage s.nextPage (some new)).page } = .ok ⟨⟩ t ∧ Kept P s t ∧
      t.page s.nextPage = some { new with block := b } ∧
      (P.displaces s old = false → ∀ X, P.Complete X s → P.Complete (fun i => X i ∨ i = s.nextPage) t) := by
  have hadd := h.addPage hlevel hloose hnode
  obtain ⟨t, ht, hsuperseded⟩ := replacePage_spec hadd tree old
  have hold : ∀ j, old = some j → j ≠ s.nextPage := fun j hj heq => halive j hj (heq ▸ h.fresh _ le_rfl)
  obtain ⟨b, hb⟩ := hsuperseded.stays (fun heq => hold _ heq rfl) (page_setPage_eq s _ (some new)) hnode
  refine ⟨t, b, ht, .trans (.of_pool hadd rfl) hsuperseded.kept, hb, fun hdisplaces X hcomplete =>
    hsuperseded.queued ?_ _ ?_⟩
  · rw [← hdisplaces]
    exact displaces_congr fun j hj => if_neg (hold j hj)
  · exact (hcomplete.mono fun _ => .inl).rewrite rfl fun hX => absurd (.inr rfl) hX

variable (h : P.Inv s) (hp : s.page id = some p)

include h hp

theorem convertToCommitted_spec (hnode : p.nodeRef = false) (hstatus : p.status = .droppable) (block : Nat)
    (readyEvent : EventId) (tree : T) (halive : ∀ j, old = some j → j ≠ id ∧ s.page j ≠ none) :
    ∃ t committed, P.convertToCommitted id block readyEvent tree old s = .ok committed t ∧ Kept P s t ∧
      (∃ q, t.page committed = some q ∧ q.status = .droppable ∧ q.holders = 0 ∧ q.locks = 0 ∧ q.committed = true ∧
        q.nodeRef = false) ∧
      (P.displaces s old = false → ∀ X : PageId → Prop, P.Complete (fun i => X i ∨ i = id) s →
        P.Complete (fun i => X i ∨ i = committed) t) := by
  obtain ⟨hgone, hloose⟩ := h.forget hp hnode
  have hsame : ∀ j, old = some j → (s.setPage id none).page j = s.page j := fun j hj => if_neg (halive j hj).1
  have hlevel := h.slots.level_lt hp
  obtain ⟨t, b, ht, hkept, hb, hqueued⟩ := addPage_replace hgone { p with
    slot := { p.slot with readyEvent := some readyEvent }
    holders := 0, locks := 0, committed := true, block := some block, nodeRef := false } hlevel hloose rfl tree
    fun j hj => (hsame j hj).symm ▸ (halive j hj).2
  refine ⟨t, s.nextPage, ?_, .trans (.of_pool hgone rfl) hkept, ⟨_, hb, rfl, rfl, rfl, rfl, rfl⟩,
    fun hdisplaces X hcomplete => hqueued ((displaces_congr hsame).trans hdisplaces) X fun i q hq hX => ?_⟩
  · rw [convertToCommitted, bind_ok (getPage_eq hp), bind_ok (check_eq (by rw [hnode]; rfl)),
      bind_ok (check_eq (decide_eq_true hstatus))]
    exact bind_ok ht
  · obtain ⟨hi, hq⟩ := page_setPage_none hq
    exact hcomplete i q hq (not_or.2 ⟨hX, hi⟩)

theorem finishCommit_spec (hstatus : p.status = .droppable) (hholders : p.holders = 0) (hlocks : p.locks = 0)
    (hcommitted : p.committed = true) (hnode : p.nodeRef = false) (mode : CommitMode) :
    Ends (P.finishCommit id mode s)
      (fun _ t => Kept P s t ∧ ∀ X, P.Complete (fun i => X i ∨ i = id) s → P.Complete X t) (fun _ t => Kept P s t) := by
  cases mode with
  | lock =>
    by_cases hlevel : p.cacheLevel = 0
    · obtain ⟨t, ht, hinv, hpool, hpage⟩ := lock_spec h hp hlevel
      exact .of_ok ht ⟨.of_pool hinv hpool, fun X hcomplete => hcomplete.lock hpage⟩
    · obtain ⟨t, ht, hkeeps⟩ := lock_error h hp hlevel
      exact .of_error ht hkeeps.toKept
  | release =>
    obtain ⟨u, hu, hinv, hpool, hpage⟩ := hold_spec h hp
    have hpu : ∃ q, u.page id = some q ∧ q.holders = 1 ∧ q.locks = 0 := by
      rw [hpage, page_setPage_eq, hholders]
      exact ⟨_, rfl, rfl, hlocks⟩
    obtain ⟨q, hq, hlast⟩ := hpu
    obtain ⟨t, ht, hkept, hqueued⟩ := dropHolder_last hinv hq hlast
    have hrun : P.finishCommit id .release s = .ok ⟨⟩ t := by rw [finishCommit, bind_ok hu, ht]
    refine .of_ok hrun ⟨(Kept.of_pool hinv hpool).trans hkept, fun X hcomplete => hqueued X ?_⟩
    exact hcomplete.rewrite hpage fun hX => absurd (.inr rfl) hX
  | schedule =>
    have hevictable := (isEvictable_droppable (P := P) hstatus).trans hcommitted
    obtain ⟨t, ht, hinv, hpool, hpage⟩ := scheduleForEviction_of_evictable h hp hnode hevictable
    exact .of_ok ht ⟨.of_pool hinv hpool, fun X hcomplete => hcomplete.settle hpage fun _ => rfl⟩

theorem commitPage_spec (hone : p.holders + p.locks = 1) (block : Nat) (readyEvent : EventId) (tree : T)
    (halive : ∀ j, old = some j → j ≠ id ∧ s.page j ≠ none) (mode : CommitMode) :
    Ends (P.commitPage id block readyEvent tree old mode s)
      (fun _ t => Kept P s t ∧ (P.displaces s old = false → ∀ X, P.Complete X s → P.Complete X t))
      (fun _ t => Kept P s t) := by
  obtain ⟨u, hu, hinv, hpool, hpage⟩ : ∃ t, P.takeUncommittedPage id s = .ok ⟨⟩ t ∧
      P.Rewritten s id { p with holders := p.holders - 1, locks := p.locks - 1, nodeRef := false } t := by
    rw [takeUncommittedPage, bind_ok (getPage_eq hp)]
    exact excludeIfQueued_rewrite h hp rfl rfl rfl
  have hpu : ∃ q, u.page id = some q ∧ q.nodeRef = false ∧ q.status = .droppable := by
    rw [hpage, page_setPage_eq]
    have hholders : p.holders - 1 = 0 := by omega
    have hlocks : p.locks - 1 = 0 := by omega
    exact ⟨_, rfl, rfl, status_droppable hlocks hholders⟩
  obtain ⟨q, hq, hnode, hstatus⟩ := hpu
  have hsame : ∀ j, j ≠ id → u.page j = s.page j := fun j hj => by simp [hpage, hj]
  have halive' : ∀ j, old = some j → j ≠ id ∧ u.page j ≠ none := by
    intro j hj
    rw [hsame j (halive j hj).1]
    exact halive j hj
  have hdisplaces : P.displaces u old = P.displaces s old := displaces_congr fun j hj => hsame j (halive j hj).1
  obtain ⟨v, committed, hv, hkept, ⟨c, hc, hcstatus, hcholders, hclocks, hccommitted, hcnode⟩, hqueued⟩ :=
    convertToCommitted_spec hinv hq hnode hstatus block readyEvent tree halive'
  have hstart : Kept P s v := (Kept.of_pool hinv hpool).trans hkept
  rw [commitPage, bind_ok hu, bind_ok hv]
  refine (finishCommit_spec hkept.inv hc hcstatus hcholders hclocks hccommitted hcnode mode).mono ?_ ?_
  · rintro _ t ⟨hend, hfill⟩
    refine ⟨hstart.trans hend, fun hno X hcomplete => hfill X (hqueued (hdisplaces.trans hno) X ?_)⟩
    exact (hcomplete.mono fun _ => .inl).rewrite hpage fun hX => absurd (.inr rfl) hX
  · exact fun _ t => hstart.trans

omit h hp

theorem copyToBlock_spec (h : P.Inv s) {level : Nat} (hlevel : level < P.numCacheLevels)
    (prio : Priority) (hloose : Loose P s level (P.lifeCycleGrouping lc) slot.slotId)
    (block : Nat) (tree : T) (halive : ∀ j, old = some j → s.page j ≠ none) :
    ∃ t, P.copyToBlock lc level prio slot block tree old s = .ok ⟨⟩ t ∧ Kept P s t ∧
      (P.displaces s old = false → ∀ X, P.Complete X s → P.Complete X t) := by
  obtain ⟨u, b, hu, hkept, hb, hqueued⟩ := addPage_replace h
    ⟨lc, level, slot, prio, 0, 0, true, some block, false⟩ hlevel hloose rfl tree halive
  obtain ⟨t, ht, hinv, hpool, hpage⟩ := scheduleForEviction_of_evictable hkept.inv hb rfl (isEvictable_droppable rfl)
  refine ⟨t, ?_, hkept.trans (.of_pool hinv hpool), fun hdisplaces X hcomplete => ?_⟩
  · change (P.replacePage tree old >>= fun _ => P.scheduleForEviction s.nextPage) _ = _
    rw [bind_ok hu, ht]
  · exact (hqueued hdisplaces X hcomplete).settle hpage fun _ => rfl

theorem relinkPage_keeps (h : P.Inv s) (id : PageId) (block : Nat) :
    ∃ t, relinkPage id block s = .ok ⟨⟩ t ∧ Keeps P s t ∧
      ∀ {i q}, t.page i = some q → ∃ p, s.page i = some p ∧ q.status = p.status ∧ q.cacheLevel = p.cacheLevel := by
  refine ⟨s.setPage id ((s.page id).map ({ · with block := some block })), rfl, ?_⟩
  cases hp : s.page id with
  | none =>
    rw [map_none, setPage_self hp]
    exact ⟨.refl h, fun {i q} hq => ⟨q, hq, rfl, rfl⟩⟩
  | some p =>
    have hinv : P.Inv (s.setPage id (some { p with block := some block })) :=
      h.setPage hp rfl rfl fun hnode => (h.queues.evictable hp hnode : P.isEvictable p = true)
    refine ⟨⟨.of_pool hinv rfl, fun X hcomplete => hcomplete.rewrite rfl fun hX hneeds => ?_⟩, fun {i q} hq => ?_⟩
    · exact hcomplete id p hp hX hneeds
    rcases page_setPage_some hq with ⟨rfl, ⟨⟩⟩ | ⟨_, hq⟩
    · exact ⟨p, hp, rfl, rfl⟩
    · exact ⟨q, hq, rfl, rfl⟩

theorem displaces_of_births {t : Storage T} (h : P.displaces s old = false)
    (hbirths : ∀ {i q}, t.page i = some q → ∃ p, s.page i = some p ∧ q.status = p.status ∧ q.cacheLevel = p.cacheLevel) :
    P.displaces t old = false := by
  cases old with
  | none => rfl
  | some j =>
    rw [displaces, bind_some] at h ⊢
    cases hq : t.page j with
    | none => rfl
    | some q =>
      obtain ⟨p, hp, hstatus, hlevel⟩ := hbirths hq
      rw [hp] at h
      rw [any_some, hstatus, hlevel]
      exact h

theorem adoptPages_spec (h : P.Inv s) (adopted : List (PageId × Nat × Option PageId)) :
    ∃ t, adopted.forM P.adoptPage s = .ok ⟨⟩ t ∧ Kept P s t ∧
      ((∀ adoption ∈ adopted, P.displaces s adoption.2.2 = false) → ∀ X, P.Complete X s → P.Complete X t) := by
  induction adopted generalizing s with
  | nil => exact ⟨s, rfl, .refl h, fun _ _ hcomplete => hcomplete⟩
  | cons adoption adopted ih =>
    obtain ⟨u, hu, hkeeps, hbirths⟩ := relinkPage_keeps h adoption.1 adoption.2.1
    obtain ⟨v, hv, hsuperseded⟩ := replacePage_spec hkeeps.inv u.tree adoption.2.2
    obtain ⟨t, ht, hkept, hqueued⟩ := ih hsuperseded.kept.inv
    have hfirst : P.adoptPage adoption s = .ok ⟨⟩ v := by rw [adoptPage, bind_ok hu, get_bind_apply, hv]
    have hpages : ∀ {i r}, v.page i = some r → ∃ p, s.page i = some p ∧ r.status = p.status ∧ r.cacheLevel = p.cacheLevel := by
      intro i r hr
      obtain ⟨q, hq, hstatus, hlevel⟩ := hsuperseded.births hr
      obtain ⟨p, hp, hstatus', hlevel'⟩ := hbirths hq
      exact ⟨p, hp, hstatus.trans hstatus', hlevel.trans hlevel'⟩
    refine ⟨t, by rw [forM_cons_ok hfirst, ht], (hkeeps.toKept.trans hsuperseded.kept).trans hkept,
      fun hdisplaces X hcomplete => hqueued (fun next hnext => ?_) X ?_⟩
    · exact displaces_of_births (hdisplaces next (.tail _ hnext)) hpages
    · exact hsuperseded.queued (displaces_of_births (hdisplaces adoption (by simp)) hbirths) X (hkeeps.queued X hcomplete)

theorem alterTree_spec (h : P.Inv s) (tree : T) (adopted : List (PageId × Nat × Option PageId))
    (released : List PageId) : ∃ t, P.alterTree tree adopted released s = .ok ⟨⟩ t ∧ Kept P s t ∧
      ((∀ adoption ∈ adopted, P.displaces s adoption.2.2 = false) → ∀ X, P.Complete X s → P.Complete X t) := by
  have hstart : Kept P s { s with tree := tree } := .setTree h tree
  obtain ⟨u, hu, hkept, hqueued⟩ := adoptPages_spec hstart.inv adopted
  obtain ⟨t, ht, hinv, hshed⟩ := releasePages_spec hkept.inv released
  refine ⟨t, ?_, (hstart.trans hkept).trans (.of_shed hinv hshed), fun hdisplaces X hcomplete => ?_⟩
  · rw [alterTree, modify_bind_apply, bind_ok hu, ht]
  · exact (hqueued hdisplaces X hcomplete).shed hshed

/-- What the first loop of a drop does: the droppable pages of the list leave the queues. -/
structure Unqueued (ids : List PageId) (s t : Storage T) : Prop where
  pool : t.pool = s.pool
  page : ∀ id, t.page id = s.page id ∨
    ∃ p, s.page id = some p ∧ p.status = .droppable ∧ id ∈ ids ∧ t.page id = some { p with nodeRef := false }

theorem excludeDroppables_spec (h : P.Inv s) (ids : List PageId) :
    ∃ t, ids.forM P.excludeDroppable s = .ok ⟨⟩ t ∧ P.Inv t ∧ Unqueued ids s t := by
  induction ids generalizing s with
  | nil => exact ⟨s, rfl, h, rfl, fun _ => .inl rfl⟩
  | cons id ids ih =>
    have hfirst : ∃ u, P.excludeDroppable id s = .ok ⟨⟩ u ∧ P.Inv u ∧ Unqueued [id] s u := by
      cases hp : s.page id with
      | none => exact ⟨s, by rw [excludeDroppable, hp], h, rfl, fun _ => .inl rfl⟩
      | some p =>
        by_cases hqueued : p.status = .droppable ∧ p.nodeRef = true
        · obtain ⟨u, hu, hinv, hpool, hpage⟩ := excludeFromEviction_spec h hp hqueued.2
          refine ⟨u, ?_, hinv, hpool, fun i => ?_⟩
          · rw [excludeDroppable, hp]
            exact .trans (onlyIf_true (decide_eq_true hqueued)) hu
          · by_cases hi : i = id
            · refine .inr ⟨p, hi ▸ hp, hqueued.1, by simp [hi], ?_⟩
              simp [hpage, hi]
            · simp [hpage, hi]
        · refine ⟨s, ?_, h, rfl, fun _ => .inl rfl⟩
          rw [excludeDroppable, hp]
          exact onlyIf_false (decide_eq_false hqueued)
    obtain ⟨u, hu, hinv, hone⟩ := hfirst
    obtain ⟨t, ht, hend, hrest⟩ := ih hinv
    refine ⟨t, by rw [forM_cons_ok hu, ht], hend, hrest.pool.trans hone.pool, fun i => ?_⟩
    rcases hone.page i with hsame | ⟨p, hp, hstatus, hi, hleft⟩
    · rcases hrest.page i with hsame' | ⟨p, hp, hstatus, hi, hleft⟩
      · exact .inl (hsame'.trans hsame)
      · exact .inr ⟨p, hsame ▸ hp, hstatus, by simp [hi], hleft⟩
    · refine .inr ⟨p, hp, hstatus, by simp [List.mem_singleton.1 hi], ?_⟩
      rcases hrest.page i with hsame' | ⟨q, hq, _, _, hleft'⟩
      · rw [hsame', hleft]
      · rw [hleft']
        rw [hleft] at hq
        cases hq
        rfl

theorem plannedDrop_keeps (h : P.Inv s) (ids : List PageId) : ∃ t, P.plannedDrop ids s = .ok ⟨⟩ t ∧ Keeps P s t := by
  obtain ⟨u, hu, hinv, hunqueued⟩ := excludeDroppables_spec h ids
  obtain ⟨t, ht, hend, hshed, hleft⟩ := dropRefs_spec hinv ids
  refine ⟨t, by rw [plannedDrop, bind_ok hu, ht],
    (Kept.of_pool hinv hunqueued.pool).trans (.of_shed hend hshed), fun X hcomplete => ?_⟩
  intro id r hr hX hneeds
  obtain ⟨q, hq, hsame⟩ := hshed.births hr
  rcases hunqueued.page id with hold | ⟨p, hp, hstatus, hid, hq'⟩
  · rw [hsame] at hneeds ⊢
    exact hcomplete id q (hold ▸ hq) hX hneeds
  -- A droppable page of the list that is still there is queued.
  by_contra hnode
  apply hleft id hid r hr
  cases hq'.symm.trans hq
  refine ⟨?_, Bool.eq_false_iff.2 hnode⟩
  rw [hsame]
  exact hstatus

end TrtLlm.KvCache.StorageParams
