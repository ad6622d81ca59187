import TrtLlm.KvCache.Storage.Eviction

/-!
# Moving pages between slots

`_batched_migrate` takes all the new slots before it gives back an old one, so between the two an allocator has
slots that no page owns.
-/

namespace TrtLlm.KvCache.StorageParams

open List

variable {T : Type} {P : StorageParams T} {s : Storage T} {id : PageId} {p : Page} {dst n g src l : Nat} {slot : Slot}
  {a b : SlotAllocator} {slots : List Slot} {ids : List PageId}

theorem Inv.move (h : P.Inv s) (hp : s.page id = some p) (hnode : p.nodeRef = false) (ha : a.Inv)
    (hocc : a.occupiedIds = (s.pool p.cacheLevel (P.poolGroup p)).occupiedIds.erase p.slot.slotId) (n : Nat)
    (hdst : dst < P.numCacheLevels) (hloose : Loose P s dst (P.poolGroup p) slot.slotId) :
    P.Inv (((s.setPool p.cacheLevel (P.poolGroup p) a).tick n).setPage id (some { p with cacheLevel := dst, slot := slot })) := by
  -- The page ends in its old slot and a new one is made in the loose slot.
  have hgone := h.erase hp hnode ha hocc n
  have hlt : id < s.nextPage := by
    by_contra hge
    rw [h.fresh id (not_lt.1 hge)] at hp
    cases hp
  have hfree : Loose P (((s.setPool p.cacheLevel (P.poolGroup p) a).tick n).setPage id none) dst (P.poolGroup p) slot.slotId := by
    refine ⟨?_, fun {i q} hq => ?_⟩
    · rw [pool_setPage, pool_tick, pool_setPool]
      split
      · rename_i heq
        rw [hocc, Finset.mem_erase]
        refine ⟨fun hslot => hloose.2 hp ?_, heq.1 ▸ hloose.1⟩
        rw [place, heq.1, ← hslot]
      · exact hloose.1
    · exact hloose.2 (page_setPage_none hq).2
  have hmade := hgone.insert (p := { p with cacheLevel := dst, slot := slot }) (page_setPage_eq _ id none) le_rfl hlt
    hdst hfree hnode
  rwa [setPage_setPage] at hmade

theorem PoolFreed.trans {c : SlotAllocator} {m : Nat} (h : PoolFreed a b m) (h' : PoolFreed b c n) : PoolFreed a c (n + m) where
  capacity := h'.capacity.trans h.capacity
  target := h'.target.trans h.target
  free := h.free.trans h'.free
  used := by
    have := h.used
    have := h'.used
    omega

theorem migrateOne_spec (ev : EventId) (h : P.Inv s)
    (hp : s.page id = some p) (hsrc : p.cacheLevel = src) (hgroup : P.poolGroup p = g)
    (hnode : p.nodeRef = true → dst = src) (hdst : dst < P.numCacheLevels) (hloose : Loose P s dst g slot.slotId) :
    ∃ t, P.migrateOne g dst src ev id slot s = .ok ⟨⟩ t ∧ P.Inv t ∧ t.page = (s.setPage id (some { p with
        cacheLevel := dst, slot := { slot with readyEvent := some ev } })).page ∧
      (∀ l g', ¬ (l = src ∧ g' = g) → t.pool l g' = s.pool l g') ∧ PoolFreed (s.pool src g) (t.pool src g) 1 ∧
      (t.pool src g).occupiedIds = (s.pool src g).occupiedIds.erase p.slot.slotId := by
  subst hsrc hgroup
  -- First the page leaves its queue, if it is in one.
  obtain ⟨u, hu, hinv, hpool, hpage⟩ := excludeIfQueued_spec h hp
  have hmine : u.page id = some { p with nodeRef := false } := by rw [hpage, page_setPage_eq]
  have hloose' : Loose P u dst (P.poolGroup p) slot.slotId := by
    refine ⟨by rw [hpool]; exact hloose.1, fun {i q} hq => ?_⟩
    rw [hpage] at hq
    rcases page_setPage_some hq with ⟨_, ⟨⟩⟩ | ⟨_, hq⟩
    · exact (hloose.2 hp : P.place p ≠ _)
    · exact hloose.2 hq
  have howns := hinv.slots.owns hmine
  obtain ⟨a, hrelease, ha, hocc, hfreed⟩ := releaseTo_spec P { p.slot with readyEvent := some ev }
    (hinv.slots.pools p.cacheLevel (P.poolGroup p)) howns
  let moved : Page := { p with
    nodeRef := false, cacheLevel := dst, slot := { slot with readyEvent := some ev } }
  let v := ((u.setPool p.cacheLevel (P.poolGroup p) a).tick 1).setPage id (some moved)
  have hv : P.Inv v := hinv.move hmine rfl ha hocc 1 hdst hloose'
  have hvmine : v.page id = some moved := page_setPage_eq ..
  -- Last it goes back to the queue, if it was in one.
  have hback : ∃ t, onlyIf p.nodeRef (P.scheduleForEviction id) v = .ok ⟨⟩ t ∧
      P.Rewritten v id { moved with nodeRef := p.nodeRef } t := by
    by_cases hqueued : p.nodeRef = true
    · have hevictable : P.isEvictable moved = true := by
        have hsame : dst = p.cacheLevel := hnode hqueued
        have hfollows : Follows p moved := ⟨rfl, rfl, rfl, rfl, rfl, hsame.ge⟩
        rw [hfollows.isEvictable hsame]
        exact h.queues.evictable hp hqueued
      rw [hqueued]
      exact scheduleForEviction_of_evictable hv hvmine rfl hevictable
    · have hno := Bool.eq_false_iff.2 hqueued
      refine ⟨v, onlyIf_false hno, hv, rfl, (page_setPage_self ?_).symm⟩
      rw [hvmine, hno]
  obtain ⟨t, ht, hend, hpoolEnd, hpageEnd⟩ := hback
  refine ⟨t, ?_, hend, ?_, fun l g' hne => ?_, ?_, ?_⟩
  · rw [migrateOne, bind_ok (getPage_eq hp), bind_ok hu, bind_ok hrelease]
    exact ht
  · rw [hpageEnd]
    funext i
    rw [page_setPage, page_setPage, page_setPage, page_tick, page_setPool, hpage, page_setPage]
    split <;> rfl
  · rw [hpoolEnd, pool_setPage, pool_tick, pool_setPool, if_neg hne, hpool]
  · rw [hpoolEnd, pool_setPage, pool_tick, pool_setPool, if_pos ⟨rfl, rfl⟩, ← hpool]
    exact hfreed
  · rw [hpoolEnd, pool_setPage, pool_tick, pool_setPool, if_pos ⟨rfl, rfl⟩, ← hpool]
    exact hocc

theorem Loose.after_move {u : Storage T} (h : Loose P s dst g n) (hp : s.page id = some p) (hsrc : p.cacheLevel = src)
    (hgroup : P.poolGroup p = g) {event : Option EventId}
    (hpage : u.page = (s.setPage id (some { p with cacheLevel := dst, slot := { slot with readyEvent := event } })).page)
    (hpool : ∀ l g', ¬ (l = src ∧ g' = g) → u.pool l g' = s.pool l g')
    (hocc : (u.pool src g).occupiedIds = (s.pool src g).occupiedIds.erase p.slot.slotId) (hne : n ≠ slot.slotId) :
    Loose P u dst g n := by
  obtain ⟨hold, hfree⟩ := h
  refine ⟨?_, fun {i q} hq heq => ?_⟩
  · by_cases hsame : dst = src
    · have hother : n ≠ p.slot.slotId := by
        intro heq
        apply hfree hp
        rw [place, hsrc, hgroup, hsame, heq]
      rw [hsame] at hold ⊢
      rw [hocc, Finset.mem_erase]
      exact ⟨hother, hold⟩
    · rw [hpool dst g fun heq => hsame heq.1]
      exact hold
  · rw [hpage] at hq
    rcases page_setPage_some hq with ⟨_, ⟨⟩⟩ | ⟨_, hq⟩
    · simp only [place, Prod.mk.injEq] at heq
      exact hne heq.2.2.symm
    · exact hfree hq heq

theorem migrateLoop_spec (g src : Nat) (ev : EventId) (hdst : dst < P.numCacheLevels)
    {pairs : List (PageId × Slot)} (h : P.Inv s) (hids : (pairs.map Prod.fst).Nodup ∨ dst = src)
    (hslots : (pairs.map (·.2.slotId)).Nodup)
    (hpages : ∀ pair ∈ pairs, ∃ p, s.page pair.1 = some p ∧ p.cacheLevel = src ∧ P.poolGroup p = g ∧
      (p.nodeRef = true → dst = src))
    (hloose : ∀ pair ∈ pairs, Loose P s dst g pair.2.slotId) :
    ∃ t, (pairs.forM fun pair => P.migrateOne g dst src ev pair.1 pair.2 : StorageM T PUnit) s = .ok ⟨⟩ t ∧
      P.Inv t ∧
      (∀ i, i ∉ pairs.map Prod.fst → t.page i = s.page i) ∧
      (∀ i ∈ pairs.map Prod.fst, ∀ p, s.page i = some p → ∃ slot, t.page i = some { p with cacheLevel := dst, slot := slot }) ∧
      (∀ l g', ¬ (l = src ∧ g' = g) → t.pool l g' = s.pool l g') ∧
      PoolFreed (s.pool src g) (t.pool src g) pairs.length := by
  induction pairs generalizing s with
  | nil => exact ⟨s, rfl, h, fun _ _ => rfl, nofun, fun _ _ _ => rfl, .refl _⟩
  | cons pair pairs ih =>
    obtain ⟨id, slot⟩ := pair
    obtain ⟨hslot, hslots⟩ := nodup_cons.1 hslots
    obtain ⟨p, hp, hsrc, hgroup, hnode⟩ := hpages (id, slot) (.head _)
    have hmine := hloose (id, slot) (.head _)
    obtain ⟨u, hu, hinv, hpage, hpool, hfreed, hocc⟩ := migrateOne_spec ev h hp hsrc hgroup hnode hdst hmine
    have hself := (congrFun hpage id).trans (page_setPage_eq s id _)
    have hkept : ∀ i, i ≠ id → u.page i = s.page i := by
      intro i hi
      rw [hpage, page_setPage, if_neg hi]
    have hpages' : ∀ pair ∈ pairs, ∃ q, u.page pair.1 = some q ∧ q.cacheLevel = src ∧ P.poolGroup q = g ∧
        (q.nodeRef = true → dst = src) := by
      intro pair hpair
      by_cases hid : pair.1 = id
      · -- listed twice, so it moves within its level
        have hsame : dst = src := hids.resolve_left fun hnodup =>
          (nodup_cons.1 hnodup).1 (mem_map.2 ⟨pair, hpair, hid⟩)
        rw [hid, hself]
        exact ⟨_, rfl, hsame, hgroup, fun _ => hsame⟩
      · rw [hkept _ hid]
        exact hpages pair (.tail _ hpair)
    have hloose' : ∀ pair ∈ pairs, Loose P u dst g pair.2.slotId := by
      intro pair hpair
      refine (hloose pair (.tail _ hpair)).after_move hp hsrc hgroup hpage hpool hocc fun heq => ?_
      exact hslot (mem_map.2 ⟨pair, hpair, heq⟩)
    obtain ⟨t, ht, hend, hothers, hmoved, hpools, hfreed'⟩ :=
      ih hinv (hids.imp_left fun hnodup => (nodup_cons.1 hnodup).2) hslots hpages' hloose'
    refine ⟨t, .trans (forM_cons_ok (hu)) ht, hend, fun i hi => ?_, fun i hi q hq => ?_, fun l g' hne' => ?_,
      hfreed.trans hfreed'⟩
    · rw [map_cons, mem_cons, not_or] at hi
      rw [hothers i hi.2, hkept i hi.1]
    · by_cases hid : i = id
      · subst hid
        cases hp.symm.trans hq
        by_cases hagain : i ∈ pairs.map Prod.fst
        · have hlast := hmoved i hagain _ hself
          exact hlast
        · exact ⟨_, (hothers i hagain).trans hself⟩
      · exact hmoved i ((mem_cons.1 hi).resolve_left hid) q ((hkept i hid).trans hq)
    · rw [hpools l g' hne', hpool l g' hne']

theorem Inv.allocate (h : P.Inv s) (hb : SlotAllocator.AllocatedAll (s.pool l g) slots b) (n : Nat) :
    P.Inv ((s.setPool l g b).tick n) ∧ ∀ slot ∈ slots, Loose P ((s.setPool l g b).tick n) l g slot.slotId := by
  refine ⟨h.setPool hb.inv (fun _ hmine _ => ?_) n, fun slot hslot => ⟨?_, fun {i q} hq heq => ?_⟩⟩
  · rw [hb.occupied]
    exact Finset.mem_union_left _ hmine
  · rw [pool_tick, pool_setPool, if_pos ⟨rfl, rfl⟩, hb.occupied]
    exact mem_union_right _ (mem_toFinset.2 (mem_map_of_mem hslot))
  · have howns := h.slots.owns hq
    simp only [place, Prod.mk.injEq] at heq
    rw [heq.1, heq.2.1, heq.2.2] at howns
    exact hb.fresh slot hslot howns

theorem map_slotId_zip (hlen : slots.length = ids.length) : (ids.zip slots).map (·.2.slotId) = slots.map Slot.slotId := by
  calc (ids.zip slots).map (·.2.slotId) = ((ids.zip slots).map Prod.snd).map Slot.slotId := by
        rw [map_map]
        rfl
    _ = slots.map Slot.slotId := by rw [map_snd_zip hlen.le]

structure Migrated (g dst src : Nat) (ids : List PageId) (s t : Storage T) : Prop where
  moved : ∀ id ∈ ids, ∀ p, s.page id = some p → ∃ slot, t.page id = some { p with cacheLevel := dst, slot := slot }
  others : ∀ i, i ∉ ids → t.page i = s.page i
  pool : ∃ slots b, slots.length = ids.length ∧ SlotAllocator.AllocatedAll (s.pool dst g) slots b ∧
    PoolFreed ((s.setPool dst g b).pool src g) (t.pool src g) ids.length ∧
    ∀ l g', ¬ (l = src ∧ g' = g) → t.pool l g' = (s.setPool dst g b).pool l g'

theorem batchedMigrate_spec (h : P.Inv s) {defrag : Bool} (hdst : dst < P.numCacheLevels)
    (hlevels : (defrag || dst ≠ src) = true) (hids : ids.Nodup ∨ dst = src)
    (hpages : ∀ id ∈ ids, ∃ p, s.page id = some p ∧ p.cacheLevel = src ∧ P.poolGroup p = g ∧
      (p.nodeRef = true → defrag = true ∧ dst = src)) :
    Ends (P.batchedMigrate g dst src ids defrag s) (fun _ t => P.Inv t ∧ Migrated g dst src ids s t)
      (fun e t => e = .outOfPages ∧ t = s ∧ s.free dst g < ids.length) := by
  rw [batchedMigrate, bind_ok (check_eq hlevels), get_bind_apply]
  by_cases hroom : ids.length ≤ s.free dst g
  · obtain ⟨slots, b, hok, hlen, hb⟩ := (h.slots.pools dst g).allocateLoop_spec (fun i => P.complete (s.time + i)) _ hroom
    have halloc : P.allocateFrom dst g ids.length s = .ok slots ((s.setPool dst g b).tick ids.length) := by
      rw [Storage.free] at hroom
      rw [allocateFrom, SlotAllocator.allocateMultiple, if_neg (by omega), if_neg (by omega), Int.toNat_natCast, hok]
    obtain ⟨hinv, hloose⟩ := h.allocate hb ids.length
    have hchecked : (defrag || ids.all fun id => (s.page id).all (!·.nodeRef)) = true := by
      rw [Bool.or_eq_true, all_eq_true]
      by_cases hdefrag : defrag = true
      · exact .inl hdefrag
      refine .inr fun id hid => ?_
      obtain ⟨p, hp, _, _, hnode⟩ := hpages id hid
      rw [hp, Option.all_some, Bool.not_eq_true']
      by_contra hqueued
      exact hdefrag (hnode (Bool.not_eq_false _ ▸ hqueued)).1
    have hcheck : onError (check (defrag || ids.all fun id => (s.page id).all (!·.nodeRef)) (.assertion .nodeRef))
        (slots.forM (P.releaseTo dst g)) ((s.setPool dst g b).tick ids.length) =
          .ok ⟨⟩ ((s.setPool dst g b).tick ids.length) := by
      rw [onError, check_eq hchecked]
    have hfst : (ids.zip slots).map Prod.fst = ids := map_fst_zip (hlen ▸ le_rfl)
    have hmem : ∀ pair ∈ ids.zip slots, pair.1 ∈ ids ∧ pair.2 ∈ slots := fun pair => of_mem_zip
    obtain ⟨t, ht, hend, hothers, hmoved, hpools, hfreed⟩ := migrateLoop_spec g src s.time hdst hinv
      (hfst.symm ▸ hids) ((map_slotId_zip hlen).symm ▸ hb.nodup)
      (fun pair hpair => by
        obtain ⟨p, hp, hsrc, hgroup, hnode⟩ := hpages pair.1 (hmem pair hpair).1
        exact ⟨p, hp, hsrc, hgroup, fun hqueued => (hnode hqueued).2⟩)
      (fun pair hpair => hloose pair.2 (hmem pair hpair).2)
    rw [hfst] at hothers hmoved
    rw [length_zip, hlen, min_self] at hfreed
    refine .of_ok (a := ⟨⟩) ?_ ⟨hend, hmoved, hothers, slots, b, hlen, hb, hfreed, hpools⟩
    rw [bind_ok (check_eq (decide_eq_true hroom)), bind_ok halloc, bind_ok hcheck]
    exact ht
  · refine .of_error ?_ ⟨rfl, rfl, not_le.1 hroom⟩
    rw [bind_error (check_error (decide_eq_false hroom))]

end TrtLlm.KvCache.StorageParams
