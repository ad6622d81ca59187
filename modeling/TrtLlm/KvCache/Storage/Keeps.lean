import TrtLlm.KvCache.Storage.Pages

/-!
# What the page operations keep

Every operation keeps the storage invariant, whether it returns or raises, and leaves the sizes of the pool groups
alone. An operation that returns also leaves no page out of the queues that has to be in one, except that committing
a page over a held one does.
-/

namespace TrtLlm.KvCache.StorageParams

variable {T : Type} {P : StorageParams T}

structure Kept (P : StorageParams T) (s t : Storage T) : Prop where
  inv : P.Inv t
  capacity : ∀ l g, (t.pool l g).capacity = (s.pool l g).capacity
  target : ∀ l g, (t.pool l g).targetCapacity = (s.pool l g).targetCapacity

/-- Besides, no page that has to be queued was left out of the queues. -/
structure Keeps (P : StorageParams T) (s t : Storage T) : Prop extends Kept P s t where
  queued : ∀ X, P.Complete X s → P.Complete X t

namespace Kept

variable {s t u : Storage T}

theorem of_pool (hinv : P.Inv t) (hpool : t.pool = s.pool) : Kept P s t :=
  ⟨hinv, fun _ _ => by rw [hpool], fun _ _ => by rw [hpool]⟩

theorem of_frame {lvl : Nat} {X : PageId → Prop} (hinv : P.Inv t) (hframe : Frame lvl X s t) : Kept P s t :=
  ⟨hinv, hframe.capacity, hframe.target⟩

theorem of_shed {X : PageId → Prop} (hinv : P.Inv t) (hshed : Shed X s t) : Kept P s t := ⟨hinv, hshed.capacity, hshed.target⟩

theorem refl (h : P.Inv s) : Kept P s s := .of_pool h rfl

theorem trans (h : Kept P s t) (h' : Kept P t u) : Kept P s u :=
  ⟨h'.inv, fun l g => (h'.capacity l g).trans (h.capacity l g), fun l g => (h'.target l g).trans (h.target l g)⟩

end Kept

variable {s : Storage T} {id : PageId}

theorem Keeps.refl (h : P.Inv s) : Keeps P s s := ⟨.refl h, fun _ hcomplete => hcomplete⟩

theorem Keeps.trans {t u : Storage T} (h : Keeps P s t) (h' : Keeps P t u) : Keeps P s u :=
  ⟨h.toKept.trans h'.toKept, fun X hcomplete => h'.queued X (h.queued X hcomplete)⟩

namespace Rewritten

variable {t u : Storage T} {q r : Page} (h : P.Rewritten s id q t)

include h

theorem kept : Kept P s t := .of_pool h.inv h.pool

theorem get : t.page id = some q := by rw [h.page, page_setPage_eq]

theorem trans (h' : P.Rewritten t id r u) : P.Rewritten s id r u :=
  ⟨h'.inv, h'.pool.trans h.pool, h'.page.trans (page_setPage_again h.page _)⟩

end Rewritten

namespace Complete

variable {X : PageId → Prop} {s t : Storage T} {id : PageId}

theorem rewrite {q : Page} (h : P.Complete X s) (hpage : t.page = (s.setPage id (some q)).page)
    (hq : ¬ X id → P.isEvictable q = true ∨ q.status = .droppable → q.nodeRef = true) : P.Complete X t := by
  intro i r hr hX hneeds
  rw [hpage] at hr
  rcases page_setPage_some hr with ⟨rfl, ⟨⟩⟩ | ⟨_, hr⟩
  · exact hq hX hneeds
  · exact h i r hr hX hneeds

theorem fill (h : P.Complete (fun i => X i ∨ i = id) t)
    (hid : ∀ q, t.page id = some q → P.isEvictable q = true ∨ q.status = .droppable → q.nodeRef = true) :
    P.Complete X t := by
  intro i q hq hX hneeds
  by_cases hi : i = id
  · exact hid q (hi ▸ hq) hneeds
  · exact h i q hq (not_or.2 ⟨hX, hi⟩) hneeds

theorem settle {q : Page} (h : P.Complete (fun i => X i ∨ i = id) s) (hpage : t.page = (s.setPage id (some q)).page)
    (hq : P.isEvictable q = true ∨ q.status = .droppable → q.nodeRef = true) : P.Complete X t := by
  refine (h.rewrite hpage fun _ => hq).fill fun r hr => ?_
  rw [hpage, page_setPage_eq] at hr
  cases hr
  exact hq

end Complete

variable {p : Page}

theorem status_held (hlocks : p.locks = 0) (hholders : 0 < p.holders) : p.status = .held := by
  rw [Page.status, if_neg (by omega), if_pos hholders]

theorem status_droppable (hlocks : p.locks = 0) (hholders : p.holders = 0) : p.status = .droppable := by
  rw [Page.status, if_neg (by omega), if_neg (by omega)]

theorem status_locked (hlocks : 0 < p.locks) : p.status = .locked := by
  rw [Page.status, if_pos hlocks]

theorem isEvictable_droppable (hstatus : p.status = .droppable) : P.isEvictable p = p.committed := by
  rw [isEvictable, hstatus]
  simp

theorem locks_eq_zero_of_needs (hneeds : P.isEvictable p = true ∨ p.status = .droppable) : p.locks = 0 := by
  by_contra hne
  have hpos := pos_of_ne_zero hne
  rcases hneeds with hevictable | hdrop
  · rw [isEvictable, status_locked hpos] at hevictable
    simp at hevictable
  · rw [status_locked hpos] at hdrop
    cases hdrop

variable (h : P.Inv s)

include h

theorem Inv.locks_eq_zero (hp : s.page id = some p) (hnode : p.nodeRef = true) : p.locks = 0 :=
  locks_eq_zero_of_needs (.inl (h.queues.evictable hp hnode))

theorem hold_spec (hp : s.page id = some p) : ∃ t, P.hold id s = .ok ⟨⟩ t ∧ P.Rewritten s id { p with
      holders := p.holders + 1
      nodeRef := p.nodeRef && P.isEvictable { p with holders := p.holders + 1 } } t := by
  rw [hold, bind_ok (getPage_eq hp), modify_bind_apply]
  by_cases hnode : p.nodeRef = true
  · by_cases hevictable : P.isEvictable { p with holders := p.holders + 1 } = true
    · refine ⟨_, onlyIf_false (by rw [hevictable, Bool.not_true, Bool.and_false]),
        h.setPage hp rfl rfl fun _ => hevictable, rfl, ?_⟩
      rw [hevictable, Bool.and_true]
    · rw [Bool.not_eq_true] at hevictable
      obtain ⟨t, ht, hinv, hpool, hpage⟩ :=
        excludeFromEviction_rewrite h hp hnode (q := { p with holders := p.holders + 1 }) rfl rfl
      refine ⟨t, ?_, hinv, hpool, ?_⟩
      · rw [onlyIf_true (by rw [hevictable, hnode]; rfl), ht]
      · rw [hpage, hevictable, Bool.and_false]
  · rw [Bool.not_eq_true] at hnode
    refine ⟨_, onlyIf_false (by rw [hnode, Bool.false_and]), h.setPage hp rfl rfl fun hyes => ?_, rfl, ?_⟩
    · rw [hnode] at hyes
      cases hyes
    · have hsame : (p.nodeRef && P.isEvictable { p with holders := p.holders + 1 }) = p.nodeRef := by
        rw [hnode, Bool.false_and]
      rw [hsame]

theorem hold_keeps (hp : s.page id = some p) : ∃ t, P.hold id s = .ok ⟨⟩ t ∧ Keeps P s t := by
  obtain ⟨t, ht, hheld⟩ := hold_spec h hp
  refine ⟨t, ht, hheld.kept, fun X hcomplete => hcomplete.rewrite hheld.page fun hX hneeds => ?_⟩
  -- The page was held or droppable before, so it was queued.
  have hlocks := locks_eq_zero_of_needs hneeds
  change p.locks = 0 at hlocks
  have hheld : Page.status { p with holders := p.holders + 1 } = .held := status_held hlocks (Nat.succ_pos _)
  have hevictable : P.isEvictable { p with holders := p.holders + 1 } = true :=
    hneeds.resolve_right fun hdrop => nomatch hheld.symm.trans hdrop
  rw [Bool.and_eq_true]
  refine ⟨hcomplete id p hp hX ?_, hevictable⟩
  by_cases hholders : p.holders = 0
  · exact .inr (status_droppable hlocks hholders)
  · refine .inl ?_
    rw [isEvictable, hheld] at hevictable
    rw [isEvictable, status_held hlocks (pos_of_ne_zero hholders)]
    exact hevictable

/-- The last holder of a page dies. `p₀` was the page in the state `s` before; now it is `p`, in the same place and
queue, and droppable. A queue keeps the page or it ends, so it is queued in any case. -/
theorem holderDel_spec {p₀ : Page} (hp : s.page id = some p₀) (hplace : P.place p = P.place p₀)
    (hticket : P.ticket p = P.ticket p₀) (hnode : p.nodeRef = p₀.nodeRef) (hstatus : p.status = .droppable) :
    ∃ t, P.holderDel id (s.setPage id (some p)) = .ok ⟨⟩ t ∧ Kept P s t ∧
      ∀ X, P.Complete (fun i => X i ∨ i = id) s → P.Complete X t := by
  have hmine : (s.setPage id (some p)).page id = some p := page_setPage_eq ..
  -- What remains to be done once the page is out of the queues, or in one and to stay there.
  have hfinish : ∀ {u : Storage T} {b : Bool}, P.Rewritten s id { p with nodeRef := b } u →
      ∃ t, P.dropRef id u = .ok ⟨⟩ t ∧ Kept P s t ∧ ∀ X, P.Complete (fun i => X i ∨ i = id) s → P.Complete X t := by
    intro u b hu
    obtain ⟨t, ht, hend, hshed, hgone⟩ := dropRef_spec hu.inv id
    refine ⟨t, ht, hu.kept.trans (.of_shed hend hshed), fun X hcomplete => ?_⟩
    have hrest : P.Complete (fun i => X i ∨ i = id) u := hcomplete.rewrite hu.page fun hX => absurd (.inr rfl) hX
    refine (hrest.shed hshed).fill fun q hq _ => ?_
    rw [hshed.same hu.get hq]
    by_contra hno
    rw [(hgone _ hu.get hstatus (Bool.eq_false_iff.2 hno)).1] at hq
    cases hq
  rw [holderDel, bind_ok (getPage_eq hmine)]
  by_cases hcommitted : p.committed = true
  · have hevictable : P.isEvictable p = true := (isEvictable_droppable hstatus).trans hcommitted
    have hinv : P.Inv (s.setPage id (some p)) := h.setPage hp hplace hticket fun _ => hevictable
    have hqueue : ∃ u, onlyIf (p.committed && !p.nodeRef) (P.scheduleForEviction id) (s.setPage id (some p)) =
        .ok ⟨⟩ u ∧ P.Rewritten s id { p with nodeRef := true } u := by
      by_cases hqueued : p.nodeRef = true
      · refine ⟨_, onlyIf_false (by rw [hqueued, Bool.not_true, Bool.and_false]), hinv, rfl, ?_⟩
        rw [← hqueued]
      · rw [Bool.not_eq_true] at hqueued
        obtain ⟨u, hu, hinv', hpool, hpage⟩ := scheduleForEviction_of_evictable hinv hmine hqueued hevictable
        refine ⟨u, ?_, hinv', hpool, by rw [hpage, setPage_setPage]⟩
        rw [onlyIf_true (by rw [hcommitted, hqueued]; rfl), hu]
    obtain ⟨u, hu, hqueued⟩ := hqueue
    rw [bind_ok hu, get_bind_apply, if_pos hcommitted]
    by_cases hstored : P.isStored u id p = true
    · rw [bind_ok (onlyIf_false (by rw [hstored]; rfl))]
      exact hfinish hqueued
    · obtain ⟨v, hv, hout⟩ := excludeFromEviction_spec hqueued.inv hqueued.get rfl
      rw [bind_ok ((onlyIf_true (by rw [Bool.eq_false_iff.2 hstored]; rfl)).trans hv)]
      exact hfinish (b := false) (hqueued.trans hout)
  · obtain ⟨u, hu, hout⟩ := excludeIfQueued_rewrite h hp hplace hticket hnode
    rw [bind_ok (onlyIf_false (by rw [Bool.eq_false_iff.2 hcommitted, Bool.false_and])), get_bind_apply,
      if_neg hcommitted, hnode, bind_ok hu]
    exact hfinish hout

theorem dropHolder_last (hp : s.page id = some p) (hlast : p.holders = 1 ∧ p.locks = 0) :
    ∃ t, P.dropHolder id s = .ok ⟨⟩ t ∧ Kept P s t ∧ ∀ X, P.Complete (fun i => X i ∨ i = id) s → P.Complete X t := by
  have hnone : p.holders - 1 = 0 := by omega
  rw [dropHolder, bind_ok (getPage_eq hp), modify_bind_apply, onlyIf_true (decide_eq_true hlast)]
  exact holderDel_spec h hp rfl rfl rfl (status_droppable hlast.2 hnone)

theorem dropHolder_keeps (hp : s.page id = some p) (hholders : 0 < p.holders) :
    ∃ t, P.dropHolder id s = .ok ⟨⟩ t ∧ Keeps P s t := by
  by_cases hlast : p.holders = 1 ∧ p.locks = 0
  · obtain ⟨t, ht, hkept, hqueued⟩ := dropHolder_last h hp hlast
    exact ⟨t, ht, hkept, fun X hcomplete => hqueued X (hcomplete.mono fun _ => .inl)⟩
  rw [dropHolder, bind_ok (getPage_eq hp)]
  -- Another reference to the holder is left, or a lock.
  have hheld : p.locks = 0 → Page.status { p with holders := p.holders - 1 } = .held := by
    intro hlocks
    have hmore : 0 < p.holders - 1 := by
      by_contra hle
      exact hlast ⟨by omega, hlocks⟩
    exact status_held hlocks hmore
  have hsame : p.locks = 0 → P.isEvictable { p with holders := p.holders - 1 } = P.isEvictable p := by
    intro hlocks
    rw [isEvictable, isEvictable, hheld hlocks, status_held hlocks hholders]
  refine ⟨_, onlyIf_false (decide_eq_false hlast), .of_pool (h.setPage hp rfl rfl fun hnode => ?_) rfl,
    fun X hcomplete => hcomplete.rewrite rfl fun hX hneeds => ?_⟩
  · rw [hsame (h.locks_eq_zero hp hnode)]
    exact h.queues.evictable hp hnode
  · have hlocks := locks_eq_zero_of_needs hneeds
    refine hcomplete id p hp hX (.inl ?_)
    rw [← hsame hlocks]
    exact hneeds.resolve_right fun hdrop => by cases (hheld hlocks).symm.trans hdrop

theorem lock_spec (hp : s.page id = some p) (hlevel : p.cacheLevel = 0) :
    ∃ t, P.lock id s = .ok ⟨⟩ t ∧ P.Rewritten s id { p with locks := p.locks + 1, nodeRef := false } t := by
  obtain ⟨u, hu, hheld⟩ := hold_spec h hp
  have hcheck : onError (check (decide (p.cacheLevel = 0)) .valueError) (P.dropHolder id) u = .ok ⟨⟩ u := by
    unfold onError
    rw [check_eq (decide_eq_true hlevel)]
  obtain ⟨v, hv, hout⟩ := excludeIfQueued_spec hheld.inv hheld.get
  have hend : P.Rewritten v id { p with locks := p.locks + 1, nodeRef := false }
      (v.setPage id (some { p with locks := p.locks + 1, nodeRef := false })) :=
    ⟨hout.inv.setPage hout.get rfl rfl nofun, rfl, rfl⟩
  refine ⟨_, ?_, (hheld.trans hout).trans hend⟩
  rw [lock, bind_ok hu, bind_ok (getPage_eq hheld.get)]
  rw [bind_ok hcheck, bind_ok hv]
  rfl

omit h

theorem Complete.lock {X : PageId → Prop} {t : Storage T} (h : P.Complete (fun i => X i ∨ i = id) s)
    (hpage : t.page = (s.setPage id (some { p with locks := p.locks + 1, nodeRef := false })).page) :
    P.Complete X t :=
  h.settle hpage fun hneeds => nomatch locks_eq_zero_of_needs hneeds

variable (h : P.Inv s) (hp : s.page id = some p)

include h hp

theorem lock_error (hlevel : p.cacheLevel ≠ 0) : ∃ t, P.lock id s = .error .valueError t ∧ Keeps P s t := by
  obtain ⟨u, hu, hheld⟩ := hold_spec h hp
  obtain ⟨u', hu', hkeeps⟩ := hold_keeps h hp
  obtain rfl : u = u' := by
    rw [hu] at hu'
    cases hu'
    rfl
  obtain ⟨q, hq, hsame, hholders⟩ : ∃ q, u.page id = some q ∧ q.cacheLevel = p.cacheLevel ∧
    q.holders = p.holders + 1 := ⟨_, hheld.get, rfl, rfl⟩
  obtain ⟨v, hv, hkeeps'⟩ := dropHolder_keeps hkeeps.inv hq (by omega)
  have hraise : onError (check (decide (q.cacheLevel = 0)) .valueError) (P.dropHolder id) u = .error .valueError v := by
    unfold onError
    rw [check_error (decide_eq_false (by rw [hsame]; exact hlevel))]
    dsimp only
    rw [hv]
  refine ⟨v, ?_, hkeeps.trans hkeeps'⟩
  rw [lock, bind_ok hu, bind_ok (getPage_eq hq), bind_error hraise]

theorem lock_keeps : Ends (P.lock id s) (fun _ t => Keeps P s t) (fun _ t => Keeps P s t) := by
  by_cases hlevel : p.cacheLevel = 0
  · obtain ⟨t, ht, hlocked⟩ := lock_spec h hp hlevel
    exact .of_ok ht ⟨hlocked.kept, fun X hcomplete => (hcomplete.mono fun _ => .inl).lock hlocked.page⟩
  · obtain ⟨t, ht, hkeeps⟩ := lock_error h hp hlevel
    exact .of_error ht hkeeps

theorem unlock_keeps (hlocks : 0 < p.locks) (finishEvent : EventId) :
    ∃ t, P.unlock id finishEvent s = .ok ⟨⟩ t ∧ Keeps P s t := by
  have hnode : p.nodeRef = false := by
    by_contra hyes
    rw [h.locks_eq_zero hp (Bool.eq_true_of_not_eq_false hyes)] at hlocks
    cases hlocks
  generalize hslot : (if p.locks = 1 then { p.slot with readyEvent := some finishEvent } else p.slot) = slot
  have hid : slot.slotId = p.slot.slotId := by
    rw [← hslot]
    split <;> rfl
  have hplace : P.place { p with locks := p.locks - 1, slot := slot } = P.place p := by
    rw [place, hid]
    rfl
  have hinv : P.Inv (s.setPage id (some { p with locks := p.locks - 1, slot := slot })) := by
    refine h.setPage hp hplace rfl fun hyes => ?_
    rw [hnode] at hyes
    cases hyes
  have hmine : (s.setPage id (some { p with locks := p.locks - 1, slot := slot })).page id =
      some { p with locks := p.locks - 1, slot := slot } := page_setPage_eq ..
  rw [unlock, bind_ok (getPage_eq hp), hslot, modify_bind_apply]
  by_cases hlast : p.locks = 1
  · have hzero : p.locks - 1 = 0 := by omega
    rw [onlyIf_true (decide_eq_true hlast), uniqLockDel, bind_ok (getPage_eq hmine)]
    by_cases hholders : p.holders = 0
    · obtain ⟨t, ht, hkept, hqueued⟩ := holderDel_spec h hp hplace rfl rfl (status_droppable hzero hholders)
      refine ⟨t, ?_, hkept, fun X hcomplete => hqueued X (hcomplete.mono fun _ => .inl)⟩
      rw [bind_ok (.trans (onlyIf_true (decide_eq_true hholders)) ht)]
      exact onlyIf_false (decide_eq_false (not_not.2 hholders))
    · rw [bind_ok (onlyIf_false (decide_eq_false hholders)), onlyIf_true (decide_eq_true hholders)]
      have hheld : Page.status { p with locks := p.locks - 1, slot := slot } = .held :=
        status_held hzero (pos_of_ne_zero hholders)
      by_cases hevictable : P.isEvictable { p with locks := p.locks - 1, slot := slot } = true
      · obtain ⟨t, ht, hend, hpool, hpage⟩ := scheduleForEviction_of_evictable hinv hmine hnode hevictable
        refine ⟨t, ht, .of_pool hend hpool, fun X hcomplete => ?_⟩
        rw [setPage_setPage] at hpage
        exact hcomplete.rewrite hpage fun _ _ => rfl
      · refine ⟨_, scheduleForEviction_of_not hmine (Bool.eq_false_iff.2 hevictable), .of_pool hinv rfl,
          fun X hcomplete => hcomplete.rewrite rfl fun _ hneeds => ?_⟩
        rcases hneeds with hyes | hdrop
        · exact absurd hyes hevictable
        · cases hheld.symm.trans hdrop
  · refine ⟨_, onlyIf_false (decide_eq_false hlast), .of_pool hinv rfl,
      fun X hcomplete => hcomplete.rewrite rfl fun _ hneeds => ?_⟩
    have hnone := locks_eq_zero_of_needs hneeds
    change p.locks - 1 = 0 at hnone
    omega

end TrtLlm.KvCache.StorageParams
