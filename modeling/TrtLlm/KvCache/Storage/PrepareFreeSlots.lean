import TrtLlm.KvCache.Storage.Room

/-!
# `prepare_free_slots`

The descent through the levels. `prepareAt_spec` is one induction on the number of levels below: at either end it says
which pages may have moved or ended, and at a normal end, if no pool group is part-way through a shrink, that the level
has the free slots asked for.
-/

namespace TrtLlm.KvCache.StorageParams

open List Storage

variable {T : Type} {P : StorageParams T}

/-! ### The eviction at a level -/

variable {s t : Storage T} {X : PageId → Prop} {lvl' lvl : Nat} {id : PageId} {lists : Nat → List PageId}

/-- The check of a level: the pool group cannot make room for its goal and the held pages that fell to it. -/
abbrev lacking (goals : Nat → Nat → Int) (lvl : Nat) (fallenHeld : Nat → Nat) (s : Storage T) (g : Nat) : Bool :=
  lacksRoom (goals lvl g) (fallenHeld g) (s.free lvl g) (s.evictable lvl g)

theorem evictForGoals_spec (h : P.Inv s) (goals : Nat → Nat → Int) (lvl : Nat) (fallen : Nat → List PageId)
    (fallenHeld : Nat → Nat) :
    Ends (P.evictForGoals goals lvl fallen fallenHeld s)
      (fun evicted t => P.Inv t ∧ Evicted P lvl evicted s t ∧ (∀ g, P.numPoolGroups ≤ g → evicted g = []) ∧
        ∀ g < P.numPoolGroups,
          (evicted g).length = numToEvict (goals lvl g) (fallen g).length (s.free lvl g) (s.evictable lvl g) ∧
          lacking goals lvl fallenHeld s g = false)
      (fun e t => P.Inv t ∧ t.pool = s.pool ∧ t.page = s.page ∧
        ((e = .outOfPages ∧ ∃ g < P.numPoolGroups, lacking goals lvl fallenHeld s g = true) ∨ e = .assertion .noVictim)) := by
  rw [evictForGoals, get_bind_apply]
  have hall : (P.poolGroups.all fun g => !lacking goals lvl fallenHeld s g) = true ↔
      ∀ g < P.numPoolGroups, lacking goals lvl fallenHeld s g = false := by
    simp [mem_poolGroups]
  by_cases hroom : ∀ g < P.numPoolGroups, lacking goals lvl fallenHeld s g = false
  · rw [bind_ok (check_eq (hall.2 hroom))]
    refine (evict_spec P h lvl _).mono (fun evicted t ht => ?_) fun e t ht => ?_
    · obtain ⟨hinv, hevicted, hlengths, hbound⟩ := ht
      exact ⟨hinv, hevicted, hbound, fun g hg => ⟨hlengths g hg, hroom g hg⟩⟩
    · obtain ⟨hinv, hpool, hpage, hkind⟩ := ht
      exact ⟨hinv, hpool, hpage, .inr (hkind fun g _ => numToEvict_le)⟩
  · refine .of_error (bind_error (check_error (Bool.eq_false_iff.2 (mt hall.1 hroom)))) ⟨h, rfl, rfl, .inl ⟨rfl, ?_⟩⟩
    push Not at hroom
    obtain ⟨g, hg, hlacks⟩ := hroom
    exact ⟨g, hg, Bool.eq_true_of_not_eq_false hlacks⟩

namespace Evicted

variable {lvl : Nat} {evicted : Nat → List PageId} {s t u : Storage T} (h : Evicted P lvl evicted s t)

include h

theorem frame {Y : PageId → Prop} (hframe : Frame lvl Y t u) (hY : ∀ id, Y id → Listed evicted id ∨ X id) : Frame lvl X s u := by
  have hcases : ∀ id, (∃ g, id ∈ evicted g) ∨ t.page id = s.page id := by
    intro id
    by_cases hid : ∃ g, id ∈ evicted g
    · exact .inl hid
    · exact .inr (h.other fun g hg => hid ⟨g, hg⟩)
  refine ⟨fun {id r} hr => ?_, fun {id p} hp hnone => ?_, fun {id p r} hp hr hX hfree => ?_, fun l g => ?_, fun l g => ?_,
    fun l g hl => ?_, fun l g hl => ?_⟩
  · obtain ⟨q, hq, hqr⟩ := hframe.births hr
    rcases hcases id with ⟨g, hid⟩ | hsame
    · obtain ⟨p, hp, _, _, _, hq'⟩ := h.mem hid
      rw [hq] at hq'
      cases hq'
      exact ⟨p, hp, hqr.lifeCycle, hqr.priority, hqr.holders, hqr.locks, hqr.committed, hqr.level⟩
    · exact ⟨q, hsame ▸ hq, hqr⟩
  · rcases hcases id with ⟨g, hid⟩ | hsame
    · obtain ⟨p', hp', hnode, _, _, hq⟩ := h.mem hid
      cases hp.symm.trans hp'
      exact ⟨(hframe.deaths hq hnone).1, .inl hnode⟩
    · obtain ⟨hstatus, hcause⟩ := hframe.deaths (hsame ▸ hp) hnone
      refine ⟨hstatus, hcause.elim .inl fun hy => ?_⟩
      rcases hY id hy with ⟨g, hid⟩ | hx
      · obtain ⟨p', hp', hnode, _⟩ := h.mem hid
        cases hp.symm.trans hp'
        exact .inl hnode
      · exact .inr hx
  · have hout : ¬ Listed evicted id := by
      rintro ⟨g, hid⟩
      obtain ⟨p', hp', hnode, hlevel, _⟩ := h.mem hid
      cases hp.symm.trans hp'
      rcases hfree with hno | hlt
      · rw [hnode] at hno
        cases hno
      · omega
    have hsame : t.page id = s.page id := (hcases id).resolve_left hout
    exact hframe.stays (hsame ▸ hp) hr (fun hy => (hY id hy).elim hout hX) hfree
  · rw [hframe.capacity, h.pool]
  · rw [hframe.target, h.pool]
  · rw [free, ← h.pool]
    exact hframe.free_le l g hl
  · rw [used, used, ← h.pool]
    exact hframe.used_le l g hl

theorem complete (hcomplete : P.Complete X s) : P.Complete (fun id => X id ∨ Listed evicted id) t := by
  intro id q hq hX hneeds
  rw [not_or] at hX
  rw [h.other fun g hid => hX.2 ⟨g, hid⟩] at hq
  exact hcomplete id q hq hX.1 hneeds

theorem transit_page {g : Nat} {ids : List PageId} (hids : Transit P s lvl' g ids) :
    ∀ id ∈ ids, ¬ Listed evicted id ∧ t.page id = s.page id := by
  intro id hid
  obtain ⟨p, hp, hnode, _⟩ := hids.mem hid
  have hout : ¬ Listed evicted id := by
    rintro ⟨g', hid'⟩
    obtain ⟨p', hp', hqueued, _⟩ := h.mem hid'
    cases hp.symm.trans hp'
    rw [hnode] at hqueued
    cases hqueued
  exact ⟨hout, h.other fun g' hid' => hout ⟨g', hid'⟩⟩

end Evicted

/-! ### Lists that are given up -/

theorem Adrift.shed {u : Storage T} (h : Adrift lvl id t) (hshed : Shed X t u) : Adrift lvl id u := by
  intro r hr
  obtain ⟨q, hq, hsame⟩ := hshed.births hr
  rw [hsame]
  exact h q hq

theorem Adrift.frame {u : Storage T} (h : Adrift lvl id t) (hframe : Frame lvl' X t u) (hX : ¬ X id) : Adrift lvl id u := by
  intro r hr
  obtain ⟨q, hq, hfollows⟩ := hframe.births hr
  rcases h q hq with hlevel | hnode
  · exact .inl (hlevel.trans hfollows.level)
  · rw [hframe.stays hq hr hX (.inl hnode)]
    exact .inr hnode

theorem Lost.shed {u : Storage T} (h : Lost lvl id t) (hshed : Shed X t u) : Lost lvl id u := by
  intro r hr
  obtain ⟨q, hq, hsame⟩ := hshed.births hr
  rw [hsame]
  exact h q hq

theorem Lost.adrift (h : Lost lvl id t) (hlvl : lvl' ≤ lvl) : Adrift lvl' id t := fun q hq => (h q hq).imp (hlvl.trans) And.left

theorem InTransit.movable (h : InTransit P s lvl lists) (hframe : Frame lvl' X s t) {g : Nat} (hid : id ∈ lists g)
    {q : Page} (hq : t.page id = some q) : Movable q := by
  obtain ⟨p, hp, _, _, _, hmovable⟩ := (h.each g).mem hid
  exact (hframe.follows hp hq).movable hmovable

/-- Pages whose list is given up end, unless they are held or reached `lvl`. -/
theorem abandon_lost (h : P.Inv t) (hbound : ∀ g, P.numPoolGroups ≤ g → lists g = [])
    (hadrift : ∀ g, ∀ id ∈ lists g, Adrift lvl id t)
    (hmovable : ∀ g, ∀ id ∈ lists g, ∀ q, t.page id = some q → Movable q) :
    ∃ u, P.abandon lists t = .ok ⟨⟩ u ∧ P.Inv u ∧ Shed (Listed lists) t u ∧ ∀ g, ∀ id ∈ lists g, Lost lvl id u := by
  obtain ⟨u, hu, hinv, hshed, hleft⟩ := abandon_spec h lists P.poolGroups
  refine ⟨u, hu, hinv, hshed, fun g id hid r hr => ?_⟩
  have hg := mem_poolGroups_of_mem hbound hid
  rcases (hadrift g id hid).shed hshed r hr with hlevel | hnode
  · exact .inl hlevel
  obtain ⟨q, hq, hsame⟩ := hshed.births hr
  have hstatus : r.status = q.status := by rw [hsame]; rfl
  rcases hmovable g id hid q hq with hdrop | hheld
  · exact absurd ⟨hstatus.trans hdrop.1, hnode⟩ (hleft g hg id hid r hr)
  · exact .inr ⟨hnode, hstatus.trans hheld⟩

theorem abandon_nil (hlists : ∀ g, lists g = []) (s : Storage T) : P.abandon lists s = .ok ⟨⟩ s := by
  rw [abandon]
  induction P.poolGroups with
  | nil => rfl
  | cons g gs ih =>
    refine .trans (forM_cons_ok ?_) ih
    rw [hlists g]
    rfl

/-! ### What a level does -/

variable (goals : Nat → Nat → Int)

/-- When a level can be trusted with its counts: no pool group is part-way through a shrink, and a negative goal does
not meet fallen pages. -/
structure Sound (lvl : Nat) (fallen : Nat → List PageId) (s : Storage T) : Prop where
  settled : Settled s
  deeper : ∀ l g, lvl < l → 0 ≤ goals l g
  here : ∀ g, 0 ≤ goals lvl g ∨ fallen g = []

theorem Sound.congr {goals : Nat → Nat → Int} {fallen : Nat → List PageId} (h : Sound goals lvl fallen s)
    (hpool : t.pool = s.pool) : Sound goals lvl fallen t := by
  refine ⟨fun l g => ?_, h.deeper, h.here⟩
  rw [hpool]
  exact h.settled l g

variable (P)

/-- A level is done: the fallen pages that still exist are there or below. -/
structure Prepared (lvl : Nat) (X : PageId → Prop) (fallen : Nat → List PageId) (s t : Storage T) : Prop where
  inv : P.Inv t
  frame : Frame lvl X s t
  landed : ∀ g, ∀ id ∈ fallen g, ∀ q, t.page id = some q → lvl ≤ q.cacheLevel
  queued : ∀ Y, P.Complete (fun id => Y id ∨ X id) s → P.Complete Y t
  room : Sound goals lvl fallen s → ∀ g < P.numPoolGroups, goals lvl g ≤ t.free lvl g ∧
    ∀ l < lvl, t.used l g + (fallen g).countP (atLevel s l) ≤ s.used l g

/-- A level raised after its eviction, and still has its two lists. -/
structure Interrupted (lvl : Nat) (evicted fallen : Nat → List PageId) (e : StorageError) (s t : Storage T) : Prop where
  inv : P.Inv t
  frame : Frame lvl (fun id => Listed evicted id ∨ Listed fallen id) s t
  drift : ∀ g, ∀ id ∈ fallen g, Adrift lvl id t
  evictedDrift : ∀ g, ∀ id ∈ evicted g, Adrift (lvl + 1) id t
  kind : Sound goals lvl fallen s → e = .outOfPages ∨ e = .assertion .noVictim
  short : e = .outOfPages → (∀ l g, lvl < l → goals l g ≤ 0) →
    (∃ g, fallen g ≠ []) ∨ (lvl + 1 < P.numCacheLevels ∧ ∃ g, evicted g ≠ [])

/-- A queued page of level `lvl` that a raising call took out of its queue. -/
def Dislodged (lvl : Nat) (s t : Storage T) : Prop :=
  ∃ id p, s.page id = some p ∧ p.nodeRef = true ∧ p.cacheLevel = lvl ∧ Lost (lvl + 1) id t

def Short (lvl : Nat) (s : Storage T) : Prop := ∃ g < P.numPoolGroups, (s.free lvl g : Int) + s.evictable lvl g < goals lvl g

/-- A level raised. If nothing had fallen to it and it alone has a goal, it was short of pages and did nothing, or a
queued page is lost. -/
structure Failed (lvl : Nat) (fallen : Nat → List PageId) (e : StorageError) (s t : Storage T) : Prop where
  inv : P.Inv t
  frame : Frame lvl (Listed fallen) s t
  lost : ∀ g, ∀ id ∈ fallen g, Lost lvl id t
  kind : Sound goals lvl fallen s → e = .outOfPages ∨ e = .assertion .noVictim
  quiet : e = .outOfPages → (∀ l g, lvl ≤ l → goals l g ≤ 0) → ∃ g, fallen g ≠ []
  cause : e = .outOfPages → (∀ g, fallen g = []) → (∀ l g, lvl < l → goals l g ≤ 0) →
    (P.Short goals lvl s ∧ t.page = s.page) ∨ (¬ P.Short goals lvl s ∧ lvl + 1 < P.numCacheLevels ∧ Dislodged lvl s t)

abbrev LevelEnds (lvl : Nat) (fallen : Nat → List PageId) (s : Storage T)
    (result : EStateM.Result StorageError (Storage T) (Nat → List PageId)) : Prop :=
  Ends result (fun left t => (∀ g, left g = []) ∧ Prepared P goals lvl (Listed fallen) fallen s t)
    fun e t => P.Failed goals lvl fallen e s t

abbrev BodyEnds (lvl : Nat) (evicted fallen : Nat → List PageId) (s : Storage T)
    (result : EStateM.Result StorageError (Storage T) (Nat → List PageId)) : Prop :=
  Ends result (fun left t => (∀ g, left g = []) ∧
      Prepared P goals lvl (fun id => Listed evicted id ∨ Listed fallen id) fallen s t)
    fun e t => Interrupted P goals lvl evicted fallen e s t

theorem lacksRoom_zero {goal : Int} {oldFree evictable : Nat} :
    lacksRoom goal 0 oldFree evictable = true ↔ (oldFree : Int) + evictable < goal := by
  rw [lacksRoom, decide_eq_true_eq]
  omega

theorem Frame.of_eq (hpool : t.pool = s.pool) (hpage : t.page = s.page) : Frame lvl X s t := by
  have hrefl := Frame.refl lvl X s
  refine ⟨fun {id q} hq => ?_, fun {id p} hp hnone => ?_, fun {id p q} hp hq => ?_, fun l g => ?_, fun l g => ?_,
    fun l g _ => ?_, fun l g _ => ?_⟩
  · exact hrefl.births (hpage ▸ hq)
  · exact hrefl.deaths hp (hpage ▸ hnone)
  · exact hrefl.stays hp (hpage ▸ hq)
  · rw [hpool]
  · rw [hpool]
  · rw [free, free, hpool]
  · rw [used, used, hpool]

variable {P}

theorem Evicted.inTransit {evicted : Nat → List PageId} (h : Evicted P lvl evicted s t) (hinv : P.Inv s)
    (hbound : ∀ g, P.numPoolGroups ≤ g → evicted g = []) : InTransit P t (lvl + 1) evicted := by
  refine ⟨fun g => ⟨h.nodup g, fun {id} hid => ?_⟩, hbound⟩
  obtain ⟨p, hp, hnode, hlevel, hgroup, hq⟩ := h.mem hid
  refine ⟨_, hq, rfl, hlevel ▸ Nat.lt_succ_self lvl, hgroup, ?_⟩
  have hevictable := hinv.queues.evictable hp hnode
  rw [isEvictable, decide_eq_true_eq] at hevictable
  exact hevictable.imp_right And.left

section Level

variable {goals : Nat → Nat → Int} {lvl : Nat} {fallen evicted : Nat → List PageId} {fallenHeld : Nat → Nat}

structure LevelEvicted (P : StorageParams T) (goals : Nat → Nat → Int) (lvl : Nat) (fallen : Nat → List PageId)
    (fallenHeld : Nat → Nat) (evicted : Nat → List PageId) (s t : Storage T) : Prop where
  inv : P.Inv t
  popped : Evicted P lvl evicted s t
  transit : InTransit P t lvl fallen
  bound : ∀ g, P.numPoolGroups ≤ g → evicted g = []
  count : ∀ g < P.numPoolGroups,
    (evicted g).length = numToEvict (goals lvl g) (fallen g).length (s.free lvl g) (s.evictable lvl g)
  room : ∀ g < P.numPoolGroups, lacksRoom (goals lvl g) (fallenHeld g) (s.free lvl g) (s.evictable lvl g) = false

theorem evictForGoals_error {e : StorageError} (h : InTransit P s lvl fallen)
    (hheld : ∀ g, fallenHeld g ≤ (fallen g).length) (hinv : P.Inv t) (hpool : t.pool = s.pool) (hpage : t.page = s.page)
    (hcause : (e = .outOfPages ∧ ∃ g < P.numPoolGroups, lacking goals lvl fallenHeld s g = true) ∨ e = .assertion .noVictim) :
    Ends (P.abandon fallen t) (fun _ u => P.Failed goals lvl fallen e s u) fun _ u => P.Failed goals lvl fallen e s u := by
  have hfallen : InTransit P t lvl fallen := ⟨fun g => (h.each g).congr fun id _ => by rw [hpage], h.bound⟩
  have hsame : Frame lvl (Listed fallen) s t := .of_eq hpool hpage
  obtain ⟨u, hu, hend, hshed, hlost⟩ := abandon_lost hinv hfallen.bound (fun g id hid => (hfallen.each g).adrift hid)
    fun g id hid q => h.movable hsame hid
  have hzero : ∀ g, fallen g = [] → fallenHeld g = 0 := by
    intro g hg
    have hle := hheld g
    rw [hg] at hle
    exact Nat.le_zero.1 hle
  have hlacking : e = .outOfPages → ∃ g < P.numPoolGroups, lacking goals lvl fallenHeld s g = true :=
    fun herr => (hcause.resolve_right fun hno => nomatch herr.symm.trans hno).2
  refine .of_ok hu ⟨hend, hsame.trans (hshed.frame lvl), hlost, fun _ => ?_, fun herr hgoals => ?_, fun herr hnil hgoals => ?_⟩
  · exact hcause.imp_left And.left
  · obtain ⟨g, hg, hlacks⟩ := hlacking herr
    refine ⟨g, fun hnil => ?_⟩
    rw [lacking, hzero g hnil, lacksRoom_zero] at hlacks
    have hgoal := hgoals lvl g le_rfl
    omega
  · obtain ⟨g, hg, hlacks⟩ := hlacking herr
    rw [lacking, hzero g (hnil g), lacksRoom_zero] at hlacks
    have hstate := (abandon_nil hnil t).symm.trans hu
    cases hstate
    exact .inl ⟨⟨g, hg, hlacks⟩, hpage⟩

theorem interrupted_error {u : Storage T} {e : StorageError} (h : P.Inv s)
    (hheld : ∀ g, fallenHeld g ≤ (fallen g).length) (hlevel : LevelEvicted P goals lvl fallen fallenHeld evicted s t)
    (hinterrupted : Interrupted P goals lvl evicted fallen e t u) :
    Ends (P.abandon evicted u) (fun _ v => Ends (P.abandon fallen v) (fun _ w => P.Failed goals lvl fallen e s w)
      fun _ w => P.Failed goals lvl fallen e s w) fun _ _ => False := by
  have hevicted := hlevel.popped.inTransit h hlevel.bound
  obtain ⟨v, hv, hinv, hshed, hlost⟩ := abandon_lost hinterrupted.inv hlevel.bound hinterrupted.evictedDrift
    fun g id hid q => hevicted.movable hinterrupted.frame hid
  refine .of_ok hv ?_
  have hframe := hinterrupted.frame.trans ((hshed.frame lvl).mono le_rfl fun id hid => .inl hid)
  obtain ⟨w, hw, hend, hshed', hlost'⟩ := abandon_lost hinv hlevel.transit.bound
    (fun g id hid => (hinterrupted.drift g id hid).shed hshed) fun g id hid q => hlevel.transit.movable hframe hid
  have hwhole := hframe.trans ((hshed'.frame lvl).mono le_rfl fun id hid => .inr hid)
  have hcount : ∀ g, fallen g = [] → goals lvl g ≤ 0 → evicted g = [] := by
    intro g hg hgoal
    by_cases hbound : g < P.numPoolGroups
    · have hlength := hlevel.count g hbound
      rw [numToEvict, hg, length_nil] at hlength
      exact length_eq_zero_iff.1 (by omega)
    · exact hlevel.bound g (not_lt.1 hbound)
  have hfine : (∀ g, fallen g = []) → ¬ P.Short goals lvl s := by
    rintro hnil ⟨g, hg, hlt⟩
    have hle := hheld g
    rw [hnil g, length_nil, Nat.le_zero] at hle
    have hroom := hlevel.room g hg
    rw [hle, ← Bool.not_eq_true, lacksRoom_zero] at hroom
    exact hroom hlt
  refine .of_ok hw ⟨hend, hlevel.popped.frame hwhole fun _ hid => hid, hlost', fun hsound => ?_, fun herr hgoals => ?_,
    fun herr hnil hgoals => ?_⟩
  · exact hinterrupted.kind (hsound.congr hlevel.popped.pool)
  · rcases hinterrupted.short herr fun l g hl => hgoals l g hl.le with hfallen | ⟨-, g, hg⟩
    · exact hfallen
    · exact ⟨g, fun hnil => hg (hcount g hnil (hgoals lvl g le_rfl))⟩
  · rcases hinterrupted.short herr hgoals with ⟨g, hg⟩ | ⟨hlower, g, hg⟩
    · exact absurd (hnil g) hg
    obtain ⟨id, hid⟩ := exists_mem_of_ne_nil _ hg
    obtain ⟨p, hp, hnode, hlvl, _⟩ := hlevel.popped.mem hid
    exact .inr ⟨hfine hnil, hlower, id, p, hp, hnode, hlvl, (hlost g id hid).shed hshed'⟩

/-- A level is its eviction and a body; if the body raises, both lists of the level are given up. -/
theorem level_spec {body : (Nat → List PageId) → StorageM T (Nat → List PageId)} (h : P.Inv s)
    (hfallen : InTransit P s lvl fallen) (hheld : ∀ g, fallenHeld g ≤ (fallen g).length)
    (hbody : ∀ evicted t, LevelEvicted P goals lvl fallen fallenHeld evicted s t →
      BodyEnds P goals lvl evicted fallen t (body evicted t)) :
    LevelEnds P goals lvl fallen s (onError (P.evictForGoals goals lvl fallen fallenHeld >>= fun evicted =>
      onError (body evicted) (P.abandon evicted)) (P.abandon fallen) s) := by
  refine .onError ?_ fun e t ht => ht
  refine (evictForGoals_spec h goals lvl fallen fallenHeld).bind (fun evicted t ht => ?_) fun e t ht => ?_
  · obtain ⟨hinv, hevicted, hbound, hcounts⟩ := ht
    have hsame : ∀ g, ∀ id ∈ fallen g, t.page id = s.page id := fun g id hid =>
      (hevicted.transit_page (hfallen.each g) id hid).2
    have hlevel : LevelEvicted P goals lvl fallen fallenHeld evicted s t :=
      ⟨hinv, hevicted, ⟨fun g => (hfallen.each g).congr (hsame g), hfallen.bound⟩, hbound,
        fun g hg => (hcounts g hg).1, fun g hg => (hcounts g hg).2⟩
    refine .onError ((hbody evicted t hlevel).mono (fun left u hu => ?_) fun e u hu => ?_)
      (E := fun e u => Interrupted P goals lvl evicted fallen e t u) fun e u hu => ?_
    · obtain ⟨hleft, hprepared⟩ := hu
      refine ⟨hleft, hprepared.inv, hevicted.frame hprepared.frame fun _ hid => hid, hprepared.landed,
        fun Y hcomplete => hprepared.queued Y ((hevicted.complete hcomplete).mono fun id hid => ?_),
        fun hsound g hg => ?_⟩
      · rcases hid with (hy | hfall) | hout
        · exact .inl hy
        · exact .inr (.inr hfall)
        · exact .inr (.inl hout)
      have hroom := hprepared.room (hsound.congr hevicted.pool) g hg
      refine ⟨hroom.1, fun l hl => ?_⟩
      have hused := hroom.2 l hl
      rw [countP_atLevel_congr (hsame g)] at hused
      rw [used, used, ← hevicted.pool]
      exact hused
    · exact hu
    · exact (interrupted_error h hheld hlevel hu).mono (fun _ _ hv => hv) fun _ _ hv => hv.elim
  · obtain ⟨hinv, hpool, hpage, hcause⟩ := ht
    exact evictForGoals_error hfallen hheld hinv hpool hpage hcause

/-- The body of the last level; `rest` and `held` are the fallen pages that are not held and those that are. -/
theorem lastBody_spec {rest held : Nat → List PageId} (h : P.Inv s) (hlast : lvl + 1 = P.numCacheLevels)
    (hperm : ∀ g, (rest g ++ held g).Perm (fallen g)) (hrest : ∀ g, ∀ id ∈ rest g, t.hasStatus .held id = false)
    (hlevel : LevelEvicted P goals lvl fallen (fun g => (held g).length) evicted s t) :
    BodyEnds P goals lvl evicted fallen t ((P.acceptAllLast goals lvl evicted rest held P.poolGroups >>= fun accepted =>
      P.finishLevel lvl true (fun _ => []) accepted >>= fun _ =>
      (pure fun _ => [] : StorageM T (Nat → List PageId))) t) := by
  have hmem : ∀ {g id}, id ∈ rest g ++ held g ↔ id ∈ fallen g := fun {g id} => (hperm g).mem_iff
  have htransit := fun g => (hlevel.transit.each g).perm (hperm g)
  have hdoomed : ∀ g, Doomed P t lvl g (evicted g) := by
    intro g
    refine ⟨hlevel.popped.nodup g, fun {id} hid => ?_⟩
    obtain ⟨p, hp, hnode, hlvl, hgroup, hq⟩ := hlevel.popped.mem hid
    refine ⟨_, hq, ?_, rfl, hgroup, hlvl⟩
    have hevictable := h.queues.evictable hp hnode
    rw [isEvictable, decide_eq_true_eq] at hevictable
    rcases hevictable with hdrop | hheld
    · exact hdrop.1
    · omega
  have hroom : ∀ g ∈ P.poolGroups, goals lvl g + (held g).length ≤ t.free lvl g + (evicted g).length := by
    intro g hg
    rw [mem_poolGroups] at hg
    have hle : (held g).length ≤ (fallen g).length := by
      rw [← (hperm g).length_eq, length_append]
      exact Nat.le_add_left _ _
    rw [free, hlevel.popped.pool, hlevel.count g hg]
    exact goal_add_held_le (hlevel.room g hg) hle
  have hlisted : ∀ id, ListedIn P.poolGroups evicted (fun g => rest g ++ held g) id → Listed evicted id ∨ Listed fallen id := by
    rintro id ⟨g, _, hid⟩
    exact (mem_append.1 hid).imp (fun hid => ⟨g, hid⟩) fun hid => ⟨g, hmem.1 hid⟩
  have hnode : ∀ g, ∀ id ∈ evicted g ++ fallen g, ∃ p, t.page id = some p ∧ p.nodeRef = false := by
    intro g id hid
    rcases mem_append.1 hid with hid | hid
    · obtain ⟨p, hp, _, hnode, _⟩ := (hdoomed g).mem hid
      exact ⟨p, hp, hnode⟩
    · obtain ⟨p, hp, hnode, _⟩ := (hlevel.transit.each g).mem hid
      exact ⟨p, hp, hnode⟩
  -- Where pages only ended, what is left of the lists is in no queue.
  have hdrift : ∀ {X : PageId → Prop} {u : Storage T}, Shed X t u → ∀ lvl' g, ∀ id ∈ evicted g ++ fallen g, Adrift lvl' id u := by
    intro X u hshed lvl' g id hid q hq
    obtain ⟨p, hp, hno⟩ := hnode g id hid
    rw [hshed.same hp hq]
    exact .inr hno
  refine (acceptAllLast_spec nodup_range hlevel.inv (fun g _ => hdoomed g) (fun g _ => htransit g)
    (fun g _ => hrest g) hroom).bind (fun accepted u hu => ?_) fun e u hu => ?_
  · obtain ⟨hinv, hshed, hnone, hdead, hall⟩ := hu
    have hsub : ∀ g, ∀ id ∈ accepted g, id ∈ fallen g := by
      intro g id hid
      by_cases hg : g ∈ P.poolGroups
      · exact hmem.1 ((hall g hg).sublist.subset hid)
      · rw [hnone g hg] at hid
        cases hid
    have hfate : ∀ g, ∀ id ∈ fallen g, g ∈ P.poolGroups ∧ (id ∈ accepted g ∨ u.page id = none) := by
      intro g id hid
      have hg := mem_poolGroups_of_mem hlevel.transit.bound hid
      exact ⟨hg, (hall g hg).fate id (hmem.2 hid)⟩
    have hframe := (hshed.frame lvl).mono le_rfl hlisted
    have hdown : ∀ id, Listed accepted id → Listed evicted id ∨ Listed fallen id := by
      rintro id ⟨g, hid⟩
      exact .inr ⟨g, hsub g id hid⟩
    have hlvl : lvl < P.numCacheLevels := by omega
    have hnot : true = false ↔ lvl + 1 < P.numCacheLevels := ⟨fun h => (by cases h), fun hlt => absurd hlast hlt.ne⟩
    refine (finishLevel_spec true hlvl hnot hinv (fun _ => rfl) hnone fun g hg =>
      (hall g hg).transit (htransit g)).bind (fun _ v hv => ⟨fun _ => rfl, ?_⟩) fun e v hv => ?_
    · obtain ⟨hend, hframe', hqueued, harrived⟩ := hv
      refine ⟨hend, hframe.trans (hframe'.mono le_rfl hdown),
        fun g id hid q hq => ?_, fun Y hcomplete => hqueued Y fun id q hq hout hneeds => ?_, fun _ g hg => ?_⟩
      · obtain ⟨hg, haccepted | hgone⟩ := hfate g id hid
        · obtain ⟨q', hq', hland⟩ := (harrived g hg).1 id haccepted
          rw [hq] at hq'
          cases hq'
          exact hland.ge
        · rw [hframe'.page_eq_none hgone] at hq
          cases hq
      · -- A page of the lists that is still there was accepted.
        obtain ⟨hY, hout⟩ := not_or.1 hout
        refine hcomplete.shed hshed id q hq (not_or.2 ⟨hY, not_or.2 ⟨?_, ?_⟩⟩) hneeds
        · rintro ⟨g, hid⟩
          rw [hdead g (mem_poolGroups_of_mem hlevel.bound hid) id hid] at hq
          cases hq
        · rintro ⟨g, hid⟩
          obtain ⟨-, haccepted | hgone⟩ := hfate g id hid
          · exact hout ⟨g, haccepted⟩
          · rw [hgone] at hq
            cases hq
      · have haccepted := hall g (mem_poolGroups.2 hg)
        obtain ⟨_, hfree, hused⟩ := harrived g (mem_poolGroups.2 hg)
        have hgoal := haccepted.room
        refine ⟨by omega, fun l hl => ?_⟩
        have hmoved := hused l hl
        have hdropped := haccepted.used l
        rw [haccepted.countP_eq] at hmoved
        rw [(hperm g).countP_eq] at hdropped
        omega
    · obtain ⟨hend, hframe', hadrift, herr, g, hg, hshort⟩ := hv
      refine ⟨hend, hframe.trans (hframe'.mono le_rfl hdown),
        fun g id hid => ?_, fun g id hid => ?_, fun _ => .inl herr, fun _ _ => .inl ⟨g, fun hnil => ?_⟩⟩
      · obtain ⟨hg, haccepted | hgone⟩ := hfate g id hid
        · exact hadrift g hg id haccepted
        · intro q hq
          rw [hframe'.page_eq_none hgone] at hq
          cases hq
      · -- An evicted page is at this level, so it is not among the fallen pages that were to move.
        have hout : ¬ Listed accepted id := by
          rintro ⟨g', hid'⟩
          obtain ⟨p, hp, _, _, _, hlvl⟩ := (hdoomed g).mem hid
          obtain ⟨p', hp', _, hlt, _⟩ := (hlevel.transit.each g').mem (hsub g' id hid')
          cases hp.symm.trans hp'
          omega
        exact (hdrift hshed (lvl + 1) g id (mem_append_left _ hid)).frame hframe' hout
      · have haccepted : accepted g = [] := eq_nil_iff_forall_not_mem.2 fun id hid => by
          have hid' := hsub g id hid
          rw [hnil] at hid'
          cases hid'
        rw [haccepted] at hshort
        cases hshort
  · obtain ⟨hinv, hshed, hkind, hshort⟩ := hu
    refine ⟨hinv, (hshed.frame lvl).mono le_rfl hlisted, fun g id hid => ?_, fun g id hid => ?_, fun hsound => ?_,
      fun herr => absurd herr hkind⟩
    · exact hdrift hshed lvl g id (mem_append_right _ hid)
    · exact hdrift hshed (lvl + 1) g id (mem_append_left _ hid)
    obtain ⟨g, hg, hlt⟩ := hshort hsound.settled
    have hle := hroom g hg
    rcases hsound.here g with hgoal | hnil
    · omega
    have hheld : (held g).length = 0 := by
      have hlength := (hperm g).length_eq
      rw [hnil, length_append, length_nil] at hlength
      omega
    omega

/-- The lists of a level above the last: what falls on is the evicted pages and the first `k g` of the fallen ones. -/
theorem LevelEvicted.fall (h : P.Inv s) (hfallen : InTransit P s lvl fallen)
    (hlevel : LevelEvicted P goals lvl fallen fallenHeld evicted s t) (k : Nat → Nat) :
    InTransit P t (lvl + 1) (fun g => evicted g ++ (fallen g).take (k g)) ∧
      ∀ g, ∀ id ∈ (fallen g).drop (k g), ¬ Listed (fun g => evicted g ++ (fallen g).take (k g)) id := by
  have hevicted := hlevel.popped.inTransit h hlevel.bound
  have hout : ∀ g, ∀ id ∈ fallen g, ¬ Listed evicted id := fun g id hid =>
    (hlevel.popped.transit_page (hfallen.each g) id hid).1
  refine ⟨⟨fun g => ⟨?_, fun {id} hid => ?_⟩, fun g hg => ?_⟩, fun g id hid => ?_⟩
  · refine nodup_append.2 ⟨hlevel.popped.nodup g, (hlevel.transit.each g).nodup.sublist (take_sublist _ _), ?_⟩
    rintro i hi j hj rfl
    exact hout g i (mem_of_mem_take hj) ⟨g, hi⟩
  · rcases mem_append.1 hid with hid | hid
    · exact (hevicted.each g).mem hid
    · obtain ⟨p, hp, hnode, hlt, hrest⟩ := (hlevel.transit.each g).mem (mem_of_mem_take hid)
      exact ⟨p, hp, hnode, hlt.trans (Nat.lt_succ_self lvl), hrest⟩
  · rw [hlevel.bound g hg, hlevel.transit.bound g hg, take_nil, nil_append]
  · rintro ⟨g', hid'⟩
    rcases mem_append.1 hid' with hid' | hid'
    · exact hout g id (mem_of_mem_drop hid) ⟨g', hid'⟩
    by_cases hg : g = g'
    · subst hg
      have hnodup := (hlevel.transit.each g).nodup
      rw [← take_append_drop (k g) (fallen g)] at hnodup
      exact disjoint_of_nodup_append hnodup hid' hid
    · exact (hlevel.transit.each g).apart (hlevel.transit.each g') hg id (mem_of_mem_take hid') (mem_of_mem_drop hid)

/-- The body of a level above the last: the lists fall to the next level, and the pages that the level accepts move
into it. -/
theorem aboveBody_spec {descend : (Nat → List PageId) → StorageM T (Nat → List PageId)} {k : Nat → Nat}
    (h : P.Inv s) (hlower : lvl + 1 < P.numCacheLevels) (hfallen : InTransit P s lvl fallen)
    (hlevel : LevelEvicted P goals lvl fallen fallenHeld evicted s t)
    (hk : ∀ g < P.numPoolGroups, goals lvl g + ((fallen g).drop (k g)).length ≤ s.free lvl g + (evicted g).length)
    (hdescend : ∀ lists, InTransit P t (lvl + 1) lists → LevelEnds P goals (lvl + 1) lists t (descend lists t)) :
    BodyEnds P goals lvl evicted fallen t ((descend (fun g => evicted g ++ (fallen g).take (k g)) >>= fun left =>
      P.finishLevel lvl false left (fun g => (fallen g).drop (k g)) >>= fun _ => pure left) t) := by
  obtain ⟨hfall, hapart⟩ := hlevel.fall h hfallen k
  have hlisted : ∀ id, Listed (fun g => evicted g ++ (fallen g).take (k g)) id → Listed evicted id ∨ Listed fallen id := by
    rintro id ⟨g, hid⟩
    exact (mem_append.1 hid).imp (fun hid => ⟨g, hid⟩) fun hid => ⟨g, mem_of_mem_take hid⟩
  have hkeep := fun g => (hlevel.transit.each g).sublist (drop_sublist (k g) _)
  have hnext : Sound goals lvl fallen t → Sound goals (lvl + 1) (fun g => evicted g ++ (fallen g).take (k g)) t :=
    fun hsound => ⟨hsound.settled, fun l g hl => hsound.deeper l g (Nat.lt_of_succ_lt hl), fun g =>
      .inl (hsound.deeper (lvl + 1) g (Nat.lt_succ_self lvl))⟩
  have hevicted : ∀ g, (evicted g).countP (atLevel t lvl) = (evicted g).length := by
    intro g
    refine countP_eq_length.2 fun id hid => ?_
    obtain ⟨p, _, _, hlvl, _, hq⟩ := hlevel.popped.mem hid
    rw [atLevel_eq hq]
    exact decide_eq_true hlvl
  have hcases : ∀ g, ∀ id ∈ fallen g, id ∈ (fallen g).take (k g) ∨ id ∈ (fallen g).drop (k g) := by
    intro g id hid
    rwa [← take_append_drop (k g) (fallen g), mem_append] at hid
  refine (hdescend _ hfall).bind (fun left u hu => ?_) fun e u hu => ?_
  · obtain ⟨hleft, hprepared⟩ := hu
    have hframe := hprepared.frame.mono (Nat.le_succ lvl) hlisted
    have htransit := fun g => (hkeep g).frame hprepared.frame (hapart g)
    have hgroup : ∀ g, ∀ id ∈ (fallen g).drop (k g), g ∈ P.poolGroups := fun g id hid =>
      mem_poolGroups_of_mem hlevel.transit.bound (mem_of_mem_drop hid)
    have hnone : ∀ g, g ∉ P.poolGroups → (fallen g).drop (k g) = [] := by
      intro g hg
      rw [mem_poolGroups, not_lt] at hg
      rw [hlevel.transit.bound g hg, drop_nil]
    refine (finishLevel_spec false (Nat.lt_of_succ_lt hlower) ⟨fun _ => hlower, fun _ => rfl⟩ hprepared.inv hleft hnone
      fun g _ => htransit g).bind (fun _ v hv => ⟨hleft, ?_⟩) fun e v hv => ?_
    · obtain ⟨hend, hframe', hqueued, harrived⟩ := hv
      have hwhole := hframe.trans (hframe'.mono le_rfl fun id ⟨g, hid⟩ => .inr ⟨g, mem_of_mem_drop hid⟩)
      refine ⟨hend, hwhole, fun g id hid q hq => ?_, fun Y hcomplete => ?_, fun hsound g hg => ?_⟩
      · rcases hcases g id hid with hid | hid
        · obtain ⟨p, hp, hfollows⟩ := hframe'.births hq
          have hland := hprepared.landed g id (mem_append_right _ hid) p hp
          exact (Nat.le_of_succ_le hland).trans hfollows.level
        · obtain ⟨q', hq', hland⟩ := (harrived g (hgroup g id hid)).1 id hid
          rw [hq] at hq'
          cases hq'
          exact hland.ge
      · refine hqueued Y (hprepared.queued _ (hcomplete.mono fun id hid => ?_))
        rcases hid with hy | ⟨g, hid⟩ | ⟨g, hid⟩
        · exact .inl (.inl hy)
        · exact .inr ⟨g, mem_append_left _ hid⟩
        · rcases hcases g id hid with hid | hid
          · exact .inr ⟨g, mem_append_right _ hid⟩
          · exact .inl (.inr ⟨g, hid⟩)
      · obtain ⟨-, hused⟩ := hprepared.room (hnext hsound) g hg
        obtain ⟨-, hfree, hmoved⟩ := harrived g (mem_poolGroups.2 hg)
        -- The evicted pages have left the level, which is settled, so their slots are free.
        have hgain : t.free lvl g + (evicted g).length ≤ u.free lvl g := by
          refine hsound.settled.free_le hlevel.inv hprepared.inv hprepared.frame ?_
          have hgone := hused lvl (Nat.lt_succ_self lvl)
          rw [countP_append, hevicted g] at hgone
          omega
        have hgoal := hk g hg
        rw [free, ← hlevel.popped.pool] at hgoal
        rw [free] at hgain
        refine ⟨by omega, fun l hl => ?_⟩
        have hsplit := hused l (hl.trans (Nat.lt_succ_self lvl))
        have harrive := hmoved l hl
        rw [(hkeep g).countP_frame hprepared.frame (hapart g)] at harrive
        rw [countP_append] at hsplit
        rw [← take_append_drop (k g) (fallen g), countP_append]
        omega
    · obtain ⟨hend, hframe', hadrift, herr, g, hg, hshort⟩ := hv
      have hlanded : ∀ g, ∀ id ∈ evicted g ++ (fallen g).take (k g), Adrift (lvl + 1) id v := by
        intro g id hid q hq
        obtain ⟨p, hp, hfollows⟩ := hframe'.births hq
        exact .inl ((hprepared.landed g id hid p hp).trans hfollows.level)
      refine ⟨hend, hframe.trans (hframe'.mono le_rfl fun id ⟨g, hid⟩ => .inr ⟨g, mem_of_mem_drop hid⟩),
        fun g id hid => ?_, fun g id hid => hlanded g id (mem_append_left _ hid), fun _ => .inl herr,
        fun _ _ => .inl ⟨g, fun hnil => ?_⟩⟩
      · rcases hcases g id hid with hid | hid
        · exact fun q hq => (hlanded g id (mem_append_right _ hid) q hq).imp_left Nat.le_of_succ_le
        · exact hadrift g (hgroup g id hid) id hid
      · rw [hnil, drop_nil] at hshort
        cases hshort
  · refine ⟨hu.inv, hu.frame.mono (Nat.le_succ lvl) hlisted, fun g id hid => ?_, fun g id hid => ?_, fun hsound => ?_,
      fun herr hgoals => ?_⟩
    · rcases hcases g id hid with hid | hid
      · exact (hu.lost g id (mem_append_right _ hid)).adrift (Nat.le_succ lvl)
      · exact ((hkeep g).frame hu.frame (hapart g)).adrift hid
    · exact (hu.lost g id (mem_append_left _ hid)).adrift le_rfl
    · exact hu.kind (hnext hsound)
    · obtain ⟨g, hg⟩ := hu.quiet herr hgoals
      by_cases hnil : evicted g = []
      · refine .inl ⟨g, fun hnil' => hg ?_⟩
        rw [hnil, hnil', take_nil, nil_append]
      · exact .inr ⟨hlower, g, hnil⟩

end Level

/-- `_prepare_free_slots`, by induction on the number of levels below. -/
theorem prepareAt_spec (goals : Nat → Nat → Int) {below : Nat} {fallen : Nat → List PageId} (h : P.Inv s)
    (hlvl : lvl + below + 1 = P.numCacheLevels) (hfallen : InTransit P s lvl fallen) :
    LevelEnds P goals lvl fallen s (P.prepareAt goals below lvl fallen s) := by
  induction below generalizing lvl fallen s with
  | zero =>
    refine level_spec h hfallen (fun g => length_filter_le _ _) fun evicted t hlevel => ?_
    refine lastBody_spec h hlvl (fun g => ?_) (fun g id hid => ?_) hlevel
    · exact perm_append_comm.trans (filter_append_perm _ _)
    · obtain ⟨hid, hstatus⟩ := mem_filter.1 hid
      rw [hasStatus, (hlevel.popped.transit_page (hfallen.each g) id hid).2]
      rwa [Bool.not_eq_true'] at hstatus
  | succ below ih =>
    refine level_spec h hfallen (fun g => Nat.zero_le _) fun evicted t hlevel => ?_
    have hnum : ∀ g < P.numPoolGroups,
        0 ≤ numAccepted (goals lvl g) (t.free lvl g) (evicted g).length (fallen g).length ∧
          numAccepted (goals lvl g) (t.free lvl g) (evicted g).length (fallen g).length ≤ (fallen g).length := by
      intro g hg
      have hgoal := goal_add_held_le (hlevel.room g hg) (Nat.zero_le (fallen g).length)
      rw [free, hlevel.popped.pool, hlevel.count g hg, ← free, numAccepted]
      rw [numToEvict] at hgoal ⊢
      omega
    have hcheck : (P.poolGroups.all fun g =>
        0 ≤ numAccepted (goals lvl g) (t.free lvl g) (evicted g).length (fallen g).length) = true := by
      rw [all_eq_true]
      exact fun g hg => decide_eq_true (hnum g (mem_poolGroups.1 hg)).1
    rw [get_bind_apply, bind_ok (check_eq hcheck)]
    -- The cut is behind the evicted pages, which all fall.
    generalize hcut : (fun g => (evicted g ++ fallen g).length -
      (numAccepted (goals lvl g) (t.free lvl g) (evicted g).length (fallen g).length).toNat) = cut
    have hcut : ∀ g, cut g = (evicted g ++ fallen g).length -
        (numAccepted (goals lvl g) (t.free lvl g) (evicted g).length (fallen g).length).toNat := fun g => by rw [← hcut]
    have hle : ∀ g, (evicted g).length ≤ cut g := by
      intro g
      by_cases hg : g < P.numPoolGroups
      · have hbounds := hnum g hg
        rw [hcut, length_append]
        omega
      · rw [hlevel.bound g (not_lt.1 hg)]
        exact Nat.zero_le _
    have htake : (fun g => (evicted g ++ fallen g).take (cut g)) =
        fun g => evicted g ++ (fallen g).take (cut g - (evicted g).length) := by
      funext g
      rw [take_append, take_of_length_le (hle g)]
    have hdrop : (fun g => (evicted g ++ fallen g).drop (cut g)) = fun g => (fallen g).drop (cut g - (evicted g).length) := by
      funext g
      rw [drop_append, drop_eq_nil_of_le (hle g), nil_append]
    rw [htake, hdrop]
    refine aboveBody_spec h (by omega) hfallen hlevel (fun g hg => ?_) fun lists hlists =>
      ih hlevel.inv (by omega) hlists
    have hbounds := hnum g hg
    rw [length_drop, hcut, length_append]
    rw [numAccepted, free, hlevel.popped.pool] at hbounds ⊢
    rw [free]
    omega

end TrtLlm.KvCache.StorageParams
