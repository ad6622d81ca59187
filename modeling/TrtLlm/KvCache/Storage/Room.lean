import TrtLlm.KvCache.Storage.Descent

/-!
# Room in a level

The parts of `_prepare_free_slots`: its counts, the migration of what a level accepts, and the last level, where the
evicted pages end and so do the fallen pages that find no slot.
-/

namespace TrtLlm.KvCache.StorageParams

open List Storage

variable {T : Type} {P : StorageParams T}

section

variable {goal : Int} {fallen held oldFree evictable : Nat}

theorem numToEvict_le : numToEvict goal fallen oldFree evictable ≤ evictable := by
  rw [numToEvict]
  omega

theorem goal_add_held_le (hroom : lacksRoom goal held oldFree evictable = false) (hheld : held ≤ fallen) :
    goal + held ≤ oldFree + numToEvict goal fallen oldFree evictable := by
  rw [lacksRoom, decide_eq_false_iff_not] at hroom
  rw [numToEvict]
  omega

end

def Settled (s : Storage T) : Prop := ∀ l g, (s.pool l g).targetCapacity = (s.pool l g).capacity

variable {s : Storage T} {lvl : Nat}

theorem Settled.free_add_used (h : Settled s) (hinv : P.Inv s) (l g : Nat) :
    s.free l g + s.used l g = (s.pool l g).capacity := by
  have hpool := hinv.slots.pools l g
  have hcount := hpool.count
  have hactive := hpool.active_le
  have hstable := h l g
  rw [hpool.overflow_eq_nil hstable, List.length_nil] at hcount
  rw [Storage.free, Storage.used, SlotAllocator.numFreeSlots]
  omega

variable {X : PageId → Prop} {t : Storage T} {g : Nat} {ids : List PageId}

theorem Frame.settled (h : Frame lvl X s t) (hs : Settled s) : Settled t := by
  intro l g
  rw [h.target, h.capacity]
  exact hs l g

theorem Settled.free_le (hs : Settled s) (hinv : P.Inv s) (hinv' : P.Inv t) (hframe : Frame lvl X s t) {l n : Nat}
    (hused : t.used l g + n ≤ s.used l g) : s.free l g + n ≤ t.free l g := by
  have hbefore := hs.free_add_used hinv l g
  have hafter := (hframe.settled hs).free_add_used hinv' l g
  rw [hframe.capacity] at hafter
  omega

def Listed (lists : Nat → List PageId) (id : PageId) : Prop := ∃ g, id ∈ lists g

structure InTransit (P : StorageParams T) (s : Storage T) (lvl : Nat) (lists : Nat → List PageId) : Prop where
  each : ∀ g, Transit P s lvl g (lists g)
  bound : ∀ g, P.numPoolGroups ≤ g → lists g = []

theorem mem_poolGroups : g ∈ P.poolGroups ↔ g < P.numPoolGroups := mem_range

variable {lists : Nat → List PageId} {gs : List Nat}

theorem mem_poolGroups_of_mem (hbound : ∀ g, P.numPoolGroups ≤ g → lists g = [])
    {id : PageId} (hid : id ∈ lists g) : g ∈ P.poolGroups := by
  rw [mem_poolGroups]
  by_contra hge
  rw [hbound g (not_lt.1 hge)] at hid
  cases hid

/-- The pages of a list that a raising function gave up: what is left of them is held. -/
def Lost (lvl : Nat) (id : PageId) (t : Storage T) : Prop :=
  ∀ q, t.page id = some q → lvl ≤ q.cacheLevel ∨ (q.nodeRef = false ∧ q.status = .held)

theorem abandon_spec (h : P.Inv s) (lists : Nat → List PageId) (gs : List Nat) :
    ∃ t, (gs.forM fun g => (lists g).forM P.dropRef : StorageM T PUnit) s = .ok ⟨⟩ t ∧ P.Inv t ∧
      Shed (Listed lists) s t ∧
      ∀ g ∈ gs, ∀ id ∈ lists g, ∀ q, t.page id = some q → ¬ (q.status = .droppable ∧ q.nodeRef = false) := by
  induction gs generalizing s with
  | nil => exact ⟨s, rfl, h, .refl _ s, nofun⟩
  | cons g gs ih =>
    obtain ⟨t, ht, hinv, hshed, hleft⟩ := dropRefs_spec h (lists g)
    obtain ⟨u, hu, hend, hrest, hleft'⟩ := ih hinv
    refine ⟨u, ?_, hend, (hshed.mono fun id hid => ⟨g, hid⟩).trans hrest, fun g' hg' id hid r hr hlast => ?_⟩
    · refine .trans (forM_cons_ok ?_) hu
      exact ht
    rcases mem_cons.1 hg' with rfl | hg'
    · obtain ⟨q, hq, hqr⟩ := hrest.births hr
      rw [hqr] at hlast
      exact hleft id hid q hq hlast
    · exact hleft' g' hg' id hid r hr hlast

variable (isLastLevel : Bool) (hlvl : lvl < P.numCacheLevels) (hlast : isLastLevel = false ↔ lvl + 1 < P.numCacheLevels)

include hlvl hlast

theorem migrateAll_spec (hgs : gs.Nodup) (h : P.Inv s) (hlists : ∀ g ∈ gs, Transit P s lvl g (lists g)) :
    Ends ((gs.forM fun g => P.migrateAccepted lvl isLastLevel (lists g) : StorageM T PUnit) s)
      (fun _ t => P.Inv t ∧ Frame lvl (Listed lists) s t ∧ (∀ id, (∀ g ∈ gs, id ∉ lists g) → t.page id = s.page id) ∧
        (∀ l g, g ∉ gs → t.pool l g = s.pool l g) ∧
        ∀ g ∈ gs, (∀ id ∈ lists g, ∃ q, t.page id = some q ∧ q.cacheLevel = lvl ∧
            (P.isEvictable q = true → q.nodeRef = true)) ∧
          t.free lvl g + (lists g).length = s.free lvl g ∧
          ∀ l < lvl, t.used l g + (lists g).countP (atLevel s l) ≤ s.used l g)
      (fun e t => P.Inv t ∧ Frame lvl (Listed lists) s t ∧ (∀ g ∈ gs, ∀ id ∈ lists g, Adrift lvl id t) ∧
        e = .outOfPages ∧ ∃ g ∈ gs, s.free lvl g < (lists g).length) := by
  induction gs generalizing s with
  | nil => exact ⟨h, .refl _ _ s, fun _ _ => rfl, fun _ _ _ => rfl, nofun⟩
  | cons g gs ih =>
    obtain ⟨hg, hgs⟩ := nodup_cons.1 hgs
    have hmine := hlists g (.head _)
    have hapart : ∀ g' ∈ gs, ∀ id ∈ lists g', id ∉ lists g := by
      intro g' hg'
      refine hmine.apart (hlists g' (.tail _ hg')) ?_
      rintro rfl
      exact hg hg'
    refine (migrateAccepted_spec hlvl hlast h hmine).bind (fun _ t ht => ?_) fun e t ht => ?_
    · obtain ⟨hinv, harrived⟩ := ht
      have hframe := harrived.frame.mono (Y := Listed lists) le_rfl fun id hid => ⟨g, hid⟩
      -- The pages of the other pool groups are still on their way.
      have hothers : ∀ g' ∈ gs, ∀ id ∈ lists g', t.page id = s.page id := fun g' hg' id hid =>
        harrived.others id (hapart g' hg' id hid)
      have hpools : ∀ g' ∈ gs, ∀ l, t.pool l g' = s.pool l g' := by
        intro g' hg' l
        refine harrived.groups l g' ?_
        rintro rfl
        exact hg hg'
      have hrest := ih hgs hinv fun g' hg' =>
        (hlists g' (.tail _ hg')).congr (hothers g' hg')
      refine hrest.mono (fun _ u hu => ?_) fun e u hu => ?_
      · obtain ⟨hend, hframe', hsame, hpools', hall⟩ := hu
        refine ⟨hend, hframe.trans hframe', fun id hid => ?_, fun l g' hg' => ?_, fun g' hg' => ?_⟩
        · rw [hsame id fun g' hg' => hid g' (.tail _ hg'), harrived.others id (hid g (.head _))]
        · rw [mem_cons, not_or] at hg'
          rw [hpools' l g' hg'.2, harrived.groups l g' hg'.1]
        rcases mem_cons.1 hg' with rfl | hg'
        · refine ⟨fun id hid => ?_, ?_, fun l hl => ?_⟩
          · rw [hsame id fun g'' hg'' hid' => hapart g'' hg'' id hid' hid]
            exact harrived.arrived id hid
          · rw [free, hpools' lvl g' hg]
            exact harrived.free
          · rw [used, hpools' l g' hg]
            exact harrived.used l hl
        · obtain ⟨hland, hfree, hused⟩ := hall g' hg'
          refine ⟨hland, ?_, fun l hl => ?_⟩
          · rw [hfree, free, free, hpools g' hg']
          · have hmore := hused l hl
            rw [countP_atLevel_congr (hothers g' hg'), used, used, hpools g' hg'] at hmore
            exact hmore
      · obtain ⟨hend, hframe', hadrift, herr, g', hg', hshort⟩ := hu
        refine ⟨hend, hframe.trans hframe', forall_mem_cons.2 ⟨fun _ => harrived.adrift hframe', hadrift⟩, herr, g',
          .tail _ hg', ?_⟩
        rw [free, ← hpools g' hg']
        exact hshort
    · obtain ⟨hinv, hframe, hadrift, herr, hshort⟩ := ht
      refine ⟨hinv, hframe.mono le_rfl fun id hid => ⟨g, hid⟩, forall_mem_cons.2 ⟨hadrift, fun g' hg' id => ?_⟩, herr,
        g, (.head _), hshort⟩
      exact ((hlists g' (.tail _ hg')).frame hframe (hapart g' hg')).adrift

theorem finishLevel_spec {left accepted : Nat → List PageId} (h : P.Inv s)
    (hleft : ∀ g, left g = []) (hbound : ∀ g, g ∉ P.poolGroups → accepted g = [])
    (haccepted : ∀ g ∈ P.poolGroups, Transit P s lvl g (accepted g)) :
    Ends (P.finishLevel lvl isLastLevel left accepted s)
      (fun _ t => P.Inv t ∧ Frame lvl (Listed accepted) s t ∧
        (∀ Y, P.Complete (fun id => Y id ∨ Listed accepted id) s → P.Complete Y t) ∧
        ∀ g ∈ P.poolGroups, (∀ id ∈ accepted g, ∃ q, t.page id = some q ∧ q.cacheLevel = lvl) ∧
          t.free lvl g + (accepted g).length = s.free lvl g ∧
          ∀ l < lvl, t.used l g + (accepted g).countP (atLevel s l) ≤ s.used l g)
      (fun e t => P.Inv t ∧ Frame lvl (Listed accepted) s t ∧
        (∀ g ∈ P.poolGroups, ∀ id ∈ accepted g, Adrift lvl id t) ∧
        e = .outOfPages ∧ ∃ g ∈ P.poolGroups, s.free lvl g < (accepted g).length) := by
  have hcheck : (P.poolGroups.all fun g => (left g).isEmpty) = true := by
    rw [all_eq_true]
    intro g _
    rw [hleft g]
    rfl
  rw [finishLevel, bind_ok (check_eq hcheck)]
  refine (migrateAll_spec isLastLevel hlvl hlast nodup_range h haccepted).mono (fun _ t ht => ?_) fun _ _ ht => ht
  obtain ⟨hinv, hframe, hothers, _, harrived⟩ := ht
  refine ⟨hinv, hframe, fun Y hcomplete id q hq hY hneeds => ?_, fun g hg => ?_⟩
  · by_cases hid : ∃ g ∈ P.poolGroups, id ∈ accepted g
    · obtain ⟨g, hg, hid⟩ := hid
      obtain ⟨q', hq', _, hqueued⟩ := (harrived g hg).1 id hid
      cases hq.symm.trans hq'
      obtain ⟨p, hp, _, _, _, hmovable⟩ := (haccepted g hg).mem hid
      refine hqueued (hneeds.elim (fun hyes => hyes) fun hdrop => ?_)
      rw [isEvictable, decide_eq_true_eq]
      rcases (hframe.follows hp hq).movable hmovable with hcommitted | hheld
      · exact .inl hcommitted
      · rw [hheld] at hdrop
        cases hdrop
    · have hout : ∀ g ∈ P.poolGroups, id ∉ accepted g := fun g hg hmem => hid ⟨g, hg, hmem⟩
      rw [hothers id hout] at hq
      refine hcomplete id q hq (not_or.2 ⟨hY, ?_⟩) hneeds
      rintro ⟨g, hmem⟩
      by_cases hg : g ∈ P.poolGroups
      · exact hout g hg hmem
      · rw [hbound g hg] at hmem
        cases hmem
  · refine ⟨fun id hid => ?_, (harrived g hg).2⟩
    obtain ⟨q, hq, hlevel, _⟩ := (harrived g hg).1 id hid
    exact ⟨q, hq, hlevel⟩

omit hlvl hlast

/-- The pages the last level evicted: only droppable pages can be in its queues. -/
structure Doomed (P : StorageParams T) (s : Storage T) (lvl g : Nat) (ids : List PageId) : Prop where
  nodup : ids.Nodup
  mem : ∀ {id}, id ∈ ids → ∃ p, s.page id = some p ∧ p.status = .droppable ∧ p.nodeRef = false ∧ P.poolGroup p = g ∧
    p.cacheLevel = lvl

theorem Doomed.frame (h : Doomed P s lvl g ids) {lvl' : Nat}
    (hframe : Frame lvl' X s t) (hX : ∀ id ∈ ids, ¬ X id) : Doomed P t lvl g ids := by
  refine ⟨h.nodup, fun {id} hid => ?_⟩
  obtain ⟨p, hp, hstatus, hnode, hrest⟩ := h.mem hid
  obtain ⟨b, hb⟩ := hframe.stay hp hnode (hX id hid)
  exact ⟨_, hb, hstatus, hnode, hrest⟩

/-- Of the pages `fallen` of a pool group the last level takes `accepted`; the others ended, and the free slots suffice
for the goal and the accepted ones. -/
structure AcceptedLast (goal : Int) (lvl g : Nat) (fallen accepted : List PageId) (s t : Storage T) : Prop where
  sublist : accepted.Sublist fallen
  fate : ∀ id ∈ fallen, id ∈ accepted ∨ t.page id = none
  kept : ∀ id ∈ accepted, ∃ p b, s.page id = some p ∧ p.nodeRef = false ∧ t.page id = some { p with block := b }
  room : goal + accepted.length ≤ t.free lvl g
  used : ∀ l, t.used l g + fallen.countP (atLevel s l) ≤ s.used l g + accepted.countP (atLevel s l)

namespace AcceptedLast

variable {s t u : Storage T} {goal : Int} {lvl g : Nat} {fallen accepted : List PageId} {X : PageId → Prop}

theorem before_shed (h : AcceptedLast goal lvl g fallen accepted s t) (hshed : Shed X t u)
    (hX : ∀ id ∈ fallen, ¬ X id) : AcceptedLast goal lvl g fallen accepted s u where
  sublist := h.sublist
  kept := by
    intro id hid
    obtain ⟨p, b, hp, hnode, hq⟩ := h.kept id hid
    obtain ⟨b', hr⟩ := hshed.stay hq hnode (hX id (h.sublist.subset hid))
    exact ⟨p, b', hp, hnode, hr⟩
  fate := by
    intro id hid
    exact (h.fate id hid).imp_right hshed.page_eq_none
  room := h.room.trans (Int.ofNat_le.2 (hshed.free_le lvl g))
  used := fun l => (Nat.add_le_add_right (hshed.used_le l g) _).trans (h.used l)

theorem after_shed (h : AcceptedLast goal lvl g fallen accepted t u) (hshed : Shed X s t)
    (hfallen : Transit P s lvl g fallen) (hX : ∀ id ∈ fallen, ¬ X id) :
    AcceptedLast goal lvl g fallen accepted s u where
  sublist := h.sublist
  fate := h.fate
  kept := by
    intro id hid
    obtain ⟨p, hp, hnode, _⟩ := hfallen.mem (h.sublist.subset hid)
    obtain ⟨b, hq⟩ := hshed.stay hp hnode (hX id (h.sublist.subset hid))
    obtain ⟨q, b', hq', _, hr⟩ := h.kept id hid
    rw [hq] at hq'
    cases hq'
    exact ⟨p, b', hp, hnode, hr⟩
  room := h.room
  used := by
    intro l
    have hused := h.used l
    rw [hfallen.countP_frame (hshed.frame lvl) hX, (hfallen.sublist h.sublist).countP_frame (hshed.frame lvl)
      fun id hid => hX id (h.sublist.subset hid)] at hused
    exact hused.trans (Nat.add_le_add_right (hshed.used_le l g) _)

theorem transit (h : AcceptedLast goal lvl g fallen accepted s t) (hfallen : Transit P s lvl g fallen) :
    Transit P t lvl g accepted := by
  refine ⟨hfallen.nodup.sublist h.sublist, fun {id} hid => ?_⟩
  obtain ⟨p, b, hp, hnode, hq⟩ := h.kept id hid
  obtain ⟨p', hp', _, hrest⟩ := hfallen.mem (h.sublist.subset hid)
  cases hp.symm.trans hp'
  exact ⟨_, hq, hnode, hrest⟩

theorem countP_eq (h : AcceptedLast goal lvl g fallen accepted s t) (l : Nat) :
    accepted.countP (atLevel t l) = accepted.countP (atLevel s l) := by
  refine countP_congr fun id hid => ?_
  obtain ⟨p, b, hp, _, hq⟩ := h.kept id hid
  rw [atLevel_eq hp, atLevel_eq hq]

end AcceptedLast

/-- The last references to droppable pages of one pool group are given up: all of them end. -/
theorem dropAll_spec (h : P.Inv s) (hnodup : ids.Nodup)
    (hlast : ∀ id ∈ ids, ∃ p, s.page id = some p ∧ p.status = .droppable ∧ p.nodeRef = false ∧ P.poolGroup p = g) :
    ∃ t, ids.reverse.forM P.dropRef s = .ok ⟨⟩ t ∧ P.Inv t ∧ Shed (· ∈ ids) s t ∧ (∀ id ∈ ids, t.page id = none) ∧
      ∀ l, t.used l g + ids.countP (atLevel s l) ≤ s.used l g := by
  obtain ⟨t, ht, hinv, hshed, hleft⟩ := dropRefs_spec h ids.reverse
  refine ⟨t, ht, hinv, hshed.mono fun id => mem_reverse.1, fun id hid => ?_, fun l => ?_⟩
  · cases hq : t.page id with
    | none => rfl
    | some q =>
      obtain ⟨p, hp, hstatus, hnode, _⟩ := hlast id hid
      refine absurd ?_ (hleft id (mem_reverse.2 hid) q hq)
      rw [hshed.same hp hq]
      exact ⟨hstatus, hnode⟩
  · have hcount := dropRefs_used h (nodup_reverse.2 hnodup) (fun id hid => hlast id (mem_reverse.1 hid)) ht l
    rwa [countP_reverse] at hcount

theorem Transit.droppable (h : Transit P s lvl g ids) (hheld : ∀ id ∈ ids, s.hasStatus .held id = false) :
    ∀ id ∈ ids, ∃ p, s.page id = some p ∧ p.status = .droppable ∧ p.nodeRef = false ∧ P.poolGroup p = g := by
  intro id hid
  obtain ⟨p, hp, hnode, _, hgroup, hmovable⟩ := h.mem hid
  refine ⟨p, hp, ?_, hnode, hgroup⟩
  rcases hmovable with hdrop | hstatus
  · exact hdrop.1
  · have hno := hheld id hid
    rw [hasStatus, hp] at hno
    exact absurd hstatus (of_decide_eq_false hno)

theorem acceptLast_spec (h : P.Inv s) {goal : Int} {evicted rest held : List PageId}
    (hevicted : Doomed P s lvl g evicted) (hfallen : Transit P s lvl g (rest ++ held))
    (hrest : ∀ id ∈ rest, s.hasStatus .held id = false) (hroom : goal + held.length ≤ s.free lvl g + evicted.length) :
    Ends (P.acceptLast goal lvl g evicted rest held s)
      (fun accepted t => P.Inv t ∧ Shed (· ∈ evicted ++ (rest ++ held)) s t ∧ (∀ id ∈ evicted, t.page id = none) ∧
        AcceptedLast goal lvl g (rest ++ held) accepted s t)
      (fun e t => P.Inv t ∧ Shed (· ∈ evicted ++ (rest ++ held)) s t ∧ e ≠ .outOfPages ∧
        (Settled s → ¬ held.length ≤ s.free lvl g + evicted.length)) := by
  obtain ⟨u, hu, hinv, hshed, hdead, hused⟩ := dropAll_spec h hevicted.nodup fun id hid => by
    obtain ⟨p, hp, hstatus, hnode, hgroup, _⟩ := hevicted.mem hid
    exact ⟨p, hp, hstatus, hnode, hgroup⟩
  have hshed' : Shed (· ∈ evicted ++ (rest ++ held)) s u := hshed.mono fun id => mem_append_left _
  have hapart : ∀ id ∈ rest ++ held, id ∉ evicted := by
    intro id hid hid'
    obtain ⟨p, hp, _, _, _, hlevel⟩ := hevicted.mem hid'
    obtain ⟨p', hp', _, hlt, _⟩ := hfallen.mem hid
    cases hp.symm.trans hp'
    omega
  have hfallen' := hfallen.frame (hshed.frame lvl) hapart
  rw [acceptLast, get_bind_apply, bind_ok hu, get_bind_apply]
  by_cases hfree : evicted.length + s.free lvl g ≤ u.free lvl g
  case neg =>
    refine .of_error (bind_error (check_error (decide_eq_false hfree))) ⟨hinv, hshed', nofun, fun hsettled _ => hfree ?_⟩
    have hall : evicted.countP (atLevel s lvl) = evicted.length := by
      refine countP_eq_length.2 fun id hid => ?_
      obtain ⟨p, hp, _, _, _, hlevel⟩ := hevicted.mem hid
      rw [atLevel_eq hp, decide_eq_true hlevel]
    have hgain := hsettled.free_le h hinv (hshed.frame lvl) (hall ▸ hused lvl)
    omega
  rw [bind_ok (check_eq (decide_eq_true hfree))]
  by_cases hheld : held.length ≤ u.free lvl g
  case neg =>
    exact .of_error (bind_error (check_error (decide_eq_false hheld))) ⟨hinv, hshed', nofun, fun _ hle => hheld (by omega)⟩
  rw [bind_ok (check_eq (decide_eq_true hheld))]
  have hlength : (rest ++ held).length = rest.length + held.length := length_append
  rw [bind_ok (check_eq (decide_eq_true (by omega)))]
  generalize hcut : (rest ++ held).length - (min ((u.free lvl g : Int) - goal) (rest ++ held).length).toNat = cut
  have htake : (rest ++ held).take cut = rest.take cut := take_append_of_le_length (by omega)
  have hparts : (rest ++ held).take cut ++ (rest ++ held).drop cut = rest ++ held := take_append_drop _ _
  have hsplit : ∀ id ∈ (rest ++ held).take cut, id ∉ (rest ++ held).drop cut := by
    have hnodup := hfallen.nodup
    rw [← hparts] at hnodup
    exact fun id hid hid' => disjoint_of_nodup_append hnodup hid hid'
  have hdropped : ∀ id ∈ (rest ++ held).take cut, u.hasStatus .held id = false := by
    intro id hid
    rw [hfallen.hasStatus_frame (hshed.frame lvl) hapart _ (mem_of_mem_take hid)]
    rw [htake] at hid
    exact hrest id (mem_of_mem_take hid)
  have hcutoff := hfallen'.sublist (take_sublist cut _)
  obtain ⟨t, ht, hend, hshed'', hgone, hused'⟩ := dropAll_spec hinv hcutoff.nodup (hcutoff.droppable hdropped)
  refine .of_ok (bind_ok ht) ⟨hend, ?_, fun id hid => hshed''.page_eq_none (hdead id hid), drop_sublist _ _,
    fun id hid => ?_, fun id hid => ?_, ?_, fun l => ?_⟩
  · refine hshed'.trans (hshed''.mono fun id hid => ?_)
    exact mem_append_right _ (mem_of_mem_take hid)
  · rw [← hparts, mem_append] at hid
    exact hid.symm.imp_right (hgone id)
  · obtain ⟨p, hp, hnode, _⟩ := hfallen.mem (mem_of_mem_drop hid)
    obtain ⟨b, hq⟩ := hshed.stay hp hnode (hapart id (mem_of_mem_drop hid))
    obtain ⟨b', hr⟩ := hshed''.stay hq hnode fun hid' => hsplit id hid' hid
    exact ⟨p, b', hp, hnode, hr⟩
  · have hfree' := hshed''.free_le lvl g
    rw [length_drop]
    omega
  · have hcount := hused' l
    rw [(hfallen.sublist (take_sublist cut _)).countP_frame (hshed.frame lvl)
      fun id hid => hapart id (mem_of_mem_take hid)] at hcount
    have hbefore := hused l
    rw [← hparts, countP_append, hparts]
    omega

def ListedIn (gs : List Nat) (evicted fallen : Nat → List PageId) (id : PageId) : Prop := ∃ g ∈ gs, id ∈ evicted g ++ fallen g

theorem acceptAllLast_spec {goals : Nat → Nat → Int} {evicted rest held : Nat → List PageId}
    (hgs : gs.Nodup) (h : P.Inv s) (hevicted : ∀ g ∈ gs, Doomed P s lvl g (evicted g))
    (hfallen : ∀ g ∈ gs, Transit P s lvl g (rest g ++ held g))
    (hrest : ∀ g ∈ gs, ∀ id ∈ rest g, s.hasStatus .held id = false)
    (hroom : ∀ g ∈ gs, goals lvl g + (held g).length ≤ s.free lvl g + (evicted g).length) :
    Ends (P.acceptAllLast goals lvl evicted rest held gs s)
      (fun accepted t => P.Inv t ∧ Shed (ListedIn gs evicted fun g => rest g ++ held g) s t ∧
        (∀ g ∉ gs, accepted g = []) ∧ (∀ g ∈ gs, ∀ id ∈ evicted g, t.page id = none) ∧
        ∀ g ∈ gs, AcceptedLast (goals lvl g) lvl g (rest g ++ held g) (accepted g) s t)
      (fun e t => P.Inv t ∧ Shed (ListedIn gs evicted fun g => rest g ++ held g) s t ∧ e ≠ .outOfPages ∧
        (Settled s → ∃ g ∈ gs, ¬ (held g).length ≤ s.free lvl g + (evicted g).length)) := by
  induction gs generalizing s with
  | nil => exact ⟨h, .refl _ s, fun _ _ => rfl, nofun, nofun⟩
  | cons g gs ih =>
    obtain ⟨hg, hgs⟩ := nodup_cons.1 hgs
    have hmine : ∀ id, id ∈ evicted g ++ (rest g ++ held g) →
        ListedIn (g :: gs) evicted (fun g => rest g ++ held g) id := fun id hid => ⟨g, (.head _), hid⟩
    have hothers : ∀ id, ListedIn gs evicted (fun g => rest g ++ held g) id →
        ListedIn (g :: gs) evicted (fun g => rest g ++ held g) id :=
      fun id ⟨g', hg', hid⟩ => ⟨g', .tail _ hg', hid⟩
    -- A page names its pool group, so what happens to those of `g` does not touch the others.
    have hgroup : ∀ g' ∈ g :: gs, ∀ id ∈ evicted g' ++ (rest g' ++ held g'), ∃ p, s.page id = some p ∧ P.poolGroup p = g' := by
      intro g' hg' id hid
      rcases mem_append.1 hid with hid | hid
      · obtain ⟨p, hp, _, _, hpg, _⟩ := (hevicted g' hg').mem hid
        exact ⟨p, hp, hpg⟩
      · obtain ⟨p, hp, _, _, hpg, _⟩ := (hfallen g' hg').mem hid
        exact ⟨p, hp, hpg⟩
    have hapart : ∀ g' ∈ gs, ∀ id ∈ evicted g' ++ (rest g' ++ held g'), id ∉ evicted g ++ (rest g ++ held g) := by
      intro g' hg' id hid' hid
      obtain ⟨p, hp, hpg⟩ := hgroup g (.head _) id hid
      obtain ⟨p', hp', hpg'⟩ := hgroup g' (.tail _ hg') id hid'
      cases hp.symm.trans hp'
      rw [hpg] at hpg'
      exact hg (hpg' ▸ hg')
    have hfirst := acceptLast_spec h (hevicted g (.head _)) (hfallen g (.head _)) (hrest g (.head _)) (hroom g (.head _))
    refine hfirst.bind (fun accepted t ht => ?_) fun e t ht => ?_
    · obtain ⟨hinv, hshed, hdead, haccepted⟩ := ht
      have hkept : ∀ g' ∈ gs, ∀ id ∈ rest g' ++ held g', id ∉ evicted g ++ (rest g ++ held g) :=
        fun g' hg' id hid => hapart g' hg' id (mem_append_right _ hid)
      have hrest := ih hgs hinv
        (fun g' hg' => (hevicted g' (.tail _ hg')).frame (hshed.frame lvl) fun id hid =>
          hapart g' hg' id (mem_append_left _ hid))
        (fun g' hg' => (hfallen g' (.tail _ hg')).frame (hshed.frame lvl) (hkept g' hg'))
        (fun g' hg' id hid => by
          rw [(hfallen g' (.tail _ hg')).hasStatus_frame (hshed.frame lvl) (hkept g' hg') _ (mem_append_left _ hid)]
          exact hrest g' (.tail _ hg') id hid)
        (fun g' hg' => (hroom g' (.tail _ hg')).trans (Int.add_le_add_right (Int.ofNat_le.2 (hshed.free_le lvl g')) _))
      refine hrest.bind (fun others u hu => ?_) fun e u hu => ?_
      · obtain ⟨hend, hshed', hnone, hdead', hall⟩ := hu
        refine ⟨hend, (hshed.mono hmine).trans (hshed'.mono hothers), fun g' hg' => ?_,
          forall_mem_cons.2 ⟨fun id hid => hshed'.page_eq_none (hdead id hid), hdead'⟩, fun g' hg' => ?_⟩
        · rw [mem_cons, not_or] at hg'
          rw [Function.update_of_ne hg'.1]
          exact hnone g' hg'.2
        · rcases mem_cons.1 hg' with rfl | hg'
          · rw [Function.update_self]
            refine haccepted.before_shed hshed' fun id hid hid' => ?_
            obtain ⟨g'', hg'', hid''⟩ := hid'
            exact hapart g'' hg'' id hid'' (mem_append_right _ hid)
          · have hne : g' ≠ g := fun heq => hg (heq ▸ hg')
            rw [Function.update_of_ne hne]
            exact (hall g' hg').after_shed hshed (hfallen g' (.tail _ hg')) (hkept g' hg')
      · obtain ⟨hend, hshed', hkind, hshort⟩ := hu
        refine ⟨hend, (hshed.mono hmine).trans (hshed'.mono hothers), hkind, fun hsettled => ?_⟩
        obtain ⟨g', hg', hlt⟩ := hshort ((hshed.frame lvl).settled hsettled)
        refine ⟨g', .tail _ hg', fun hle => hlt (hle.trans ?_)⟩
        exact Nat.add_le_add_right (hshed.free_le lvl g') _
    · obtain ⟨hinv, hshed, hkind, hshort⟩ := ht
      exact ⟨hinv, hshed.mono hmine, hkind, fun hsettled => ⟨g, (.head _), hshort hsettled⟩⟩

end TrtLlm.KvCache.StorageParams
