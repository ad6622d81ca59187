import TrtLlm.KvCache.Storage.Frame

/-!
# Taking pages out of the queues

`evict` pops the first pages of the queues of one level. What it returns has lost its node and nothing else; when it
raises, the pages are pushed back in the opposite order and the state is as before. It raises for want of pages, and
where a request reaches beyond the first queue of a pool group: `pop` leaves the emptied queue in front, and its next
call stops there.
-/

namespace TrtLlm.KvCache

open List Function PrioritizedEvictionPolicy Storage

/-- `policy.pop()` and `page.node_ref = None`. -/
def Storage.unqueue {T : Type} (s : Storage T) (lvl g : Nat) (id : PageId) (left : PrioritizedEvictionPolicy) :
    Storage T :=
  (s.setPolicy lvl g left).setPage id ((s.page id).map ({ · with nodeRef := false }))

namespace StorageParams

variable {T : Type} {P : StorageParams T}

/-- The pages of `evicted` lost their nodes in the queues of level `lvl`; nothing else changed. -/
structure Evicted (P : StorageParams T) (lvl : Nat) (evicted : Nat → List PageId) (s t : Storage T) : Prop where
  pool : t.pool = s.pool
  mem : ∀ {g id}, id ∈ evicted g → ∃ p, s.page id = some p ∧ p.nodeRef = true ∧ p.cacheLevel = lvl ∧
    P.poolGroup p = g ∧ t.page id = some { p with nodeRef := false }
  other : ∀ {id}, (∀ g, id ∉ evicted g) → t.page id = s.page id
  nodup : ∀ g, (evicted g).Nodup

/-- The queues of level `lvl` hold every page once, as a page of their level, pool group and priority. -/
structure Scheduled (P : StorageParams T) (lvl : Nat) (s : Storage T) : Prop where
  queued : ∀ {g π id}, (π, id) ∈ (s.policy lvl g).entries → (s.page id).bind P.ticket = some (lvl, g, π)
  nodup : ∀ g, (s.policy lvl g).entries.Nodup

theorem Inv.scheduled {s : Storage T} (h : P.Inv s) (lvl : Nat) : P.Scheduled lvl s :=
  ⟨(h.queues.queued _ _ _ _).1, h.queues.nodup lvl⟩

/-- `t` is what `s` is after the pages `ids` were popped from queues of level `lvl`, the last one first. -/
inductive Popped (lvl : Nat) (s : Storage T) : List PageId → Storage T → Prop
  | none : Popped lvl s [] s
  | pop {ids t g id left} : Popped lvl s ids t → (t.policy lvl g).pop = .ok (id, left) →
      Popped lvl s (id :: ids) (t.unqueue lvl g id left)

variable {lvl g : Nat} {id : PageId} {ids : List PageId} {left : PrioritizedEvictionPolicy} {s t u : Storage T}

theorem Scheduled.page (h : P.Scheduled lvl s) {π : Priority} (hmem : (π, id) ∈ (s.policy lvl g).entries) :
    ∃ p, s.page id = some p ∧ p.nodeRef = true ∧ p.cacheLevel = lvl ∧ P.poolGroup p = g ∧ p.priority = π := by
  obtain ⟨p, hp, hticket⟩ := Option.bind_eq_some_iff.1 (h.queued hmem)
  have hnode := nodeRef_of_ticket hticket
  rw [ticket_eq_some hnode] at hticket
  obtain ⟨rfl, rfl, rfl⟩ := hticket
  exact ⟨p, hp, hnode, rfl, rfl, rfl⟩

theorem Scheduled.unqueue (h : P.Scheduled lvl s) (hpop : (s.policy lvl g).pop = .ok (id, left)) :
    P.Scheduled lvl (s.unqueue lvl g id left) := by
  obtain ⟨π, hentries, _, _⟩ := pop_ok hpop
  have hnodup := h.nodup g
  rw [hentries, nodup_cons] at hnodup
  have hmine := h.queued (hentries ▸ mem_cons_self)
  refine ⟨fun {g' π' i} hmem => ?_, fun g' => ?_⟩
  · rw [Storage.unqueue, policy_setPage, policy_setPolicy] at hmem
    -- The page popped was in no other queue, and only once in this one.
    have hold : (π', i) ∈ (s.policy lvl g').entries := by
      split at hmem
      · rename_i hg
        rw [hg.2, hentries]
        exact .tail _ hmem
      · exact hmem
    have hne : i ≠ id := by
      rintro rfl
      cases (h.queued hold).symm.trans hmine
      rw [if_pos ⟨rfl, rfl⟩] at hmem
      exact hnodup.1 hmem
    rw [Storage.unqueue, page_setPage, if_neg hne]
    exact h.queued hold
  · rw [Storage.unqueue, policy_setPage, policy_setPolicy]
    split
    · exact hnodup.2
    · exact h.nodup g'

theorem Scheduled.popped (h : P.Scheduled lvl s) (hpopped : Popped lvl s ids t) : P.Scheduled lvl t := by
  induction hpopped with
  | none => exact h
  | pop _ hpop ih => exact ih.unqueue hpop

theorem Inv.popped (h : P.Inv s) (hpopped : Popped lvl s ids t) : P.Inv t := by
  induction hpopped with
  | none => exact h
  | pop _ hpop ih =>
    obtain ⟨π, hentries, _, _⟩ := pop_ok hpop
    obtain ⟨p, hp, hnode, rfl, rfl, rfl⟩ := (ih.scheduled _).page (hentries ▸ mem_cons_self)
    rw [Storage.unqueue, hp]
    exact ih.unqueue hp hnode (by rw [hentries])

theorem Popped.trans {ids' : List PageId} (h : Popped lvl s ids t) (h' : Popped lvl t ids' u) : Popped lvl s (ids' ++ ids) u := by
  induction h' with
  | none => exact h
  | pop _ hpop ih => exact ih.pop hpop

theorem Popped.pool (h : Popped lvl s ids t) : t.pool = s.pool := by
  induction h with
  | none => rfl
  | pop _ _ ih => exact ih

theorem Popped.page (h : Popped lvl s ids t) (i : PageId) :
    t.page i = if i ∈ ids then (s.page i).map ({ · with nodeRef := false }) else s.page i := by
  induction h with
  | none => rw [if_neg not_mem_nil]
  | @pop ids t _ id _ _ _ ih =>
    rw [unqueue, page_setPage]
    by_cases hi : i = id
    · subst hi
      rw [if_pos rfl, ih, if_pos mem_cons_self]
      split
      · rw [Option.map_map]
        rfl
      · rfl
    · rw [if_neg hi, page_setPolicy, ih]
      simp only [mem_cons, hi, false_or]

theorem push_unqueue {p : Page} {π : Priority} (hp : t.page id = some p) (hnode : p.nodeRef = true)
    (hpush : left.push π id true = t.policy lvl g) :
    ((t.unqueue lvl g id left).setPolicy lvl g (((t.unqueue lvl g id left).policy lvl g).push π id true)).setPage id
      (some { p with nodeRef := true }) = t := by
  obtain ⟨pool, policy, page, nextPage, tree, time⟩ := t
  simp only [Storage.unqueue, Storage.setPolicy, Storage.setPage, Storage.mk.injEq, and_self, if_true, hpush]
  refine ⟨trivial, ?_, ?_, trivial⟩
  · ext l g' : 2
    split
    · rename_i heq
      rw [heq.1, heq.2]
    · rfl
  · ext i : 1
    split
    · rename_i heq
      rw [heq, ← hnode]
      exact hp.symm
    · rfl

theorem scheduleIn_unqueue (h : P.Scheduled lvl t) (hpop : (t.policy lvl g).pop = .ok (id, left)) :
    P.scheduleIn true lvl id (t.unqueue lvl g id left) = .ok ⟨⟩ t := by
  obtain ⟨π, hentries, hpush, _⟩ := pop_ok hpop
  obtain ⟨p, hp, hnode, rfl, rfl, rfl⟩ := h.page (hentries ▸ mem_cons_self)
  have hpage : (t.unqueue p.cacheLevel (P.poolGroup p) id left).page id = some { p with nodeRef := false } := by
    rw [unqueue, page_setPage, if_pos rfl, hp]
    rfl
  rw [scheduleIn, bind_ok (getPage_eq hpage), bind_ok (check_eq (by rfl)), bind_ok (check_eq (by simp))]
  exact congrArg (EStateM.Result.ok PUnit.unit) (push_unqueue (p := p) hp hnode hpush)

/-- The clean-up of `evict`: the pages go back in the opposite order, and all is as before. -/
theorem Popped.restore (h : Popped lvl s ids t) (hsched : P.Scheduled lvl s) : ids.forM (P.scheduleIn true lvl) t = .ok ⟨⟩ s := by
  induction h with
  | none => rfl
  | pop hpopped hpop ih => rw [forM_cons_ok (scheduleIn_unqueue (hsched.popped hpopped) hpop), ih]

/-- The inner loop: it ends well if the first queue has the pages, and at an emptied queue otherwise. -/
theorem popPages_eq (lvl g n : Nat) (t : Storage T) (popped : List PageId) :
    ∃ ids err u, popPages lvl g n popped t = .ok (popped ++ ids, err) u ∧ Popped lvl t ids.reverse u ∧
      (∀ g' ≠ g, u.policy lvl g' = t.policy lvl g') ∧
      (n ≤ (t.policy lvl g).frontLength → err = none ∧ ids = ((t.policy lvl g).entries.take n).map Prod.snd ∧
        (u.policy lvl g).entries = (t.policy lvl g).entries.drop n) ∧
      ((t.policy lvl g).frontLength < n → n ≤ t.evictable lvl g → err = some (.assertion .noVictim)) := by
  induction n generalizing t popped with
  | zero =>
    exact ⟨[], none, t, by rw [append_nil]; rfl, .none, fun _ _ => rfl, fun _ => ⟨rfl, rfl, rfl⟩, nofun⟩
  | succ n ih =>
    cases hpop : (t.policy lvl g).pop with
    | error e =>
      obtain ⟨hfront, herror⟩ := pop_error hpop
      refine ⟨[], some (popError e), t, ?_, .none, fun _ _ => rfl, fun hfit => by omega, fun _ hlen => ?_⟩
      · simp only [popPages, get_bind_apply, hpop, append_nil]
        rfl
      · rw [herror (n.succ_pos.trans_le hlen)]
        rfl
    | ok next =>
      obtain ⟨id, left⟩ := next
      obtain ⟨π, hentries, _, hfront⟩ := pop_ok hpop
      obtain ⟨ids, err, u, hu, hpopped, hkept, hok, hfail⟩ := ih (t.unqueue lvl g id left) (popped ++ [id])
      have hleft : (t.unqueue lvl g id left).policy lvl g = left := by
        rw [unqueue, policy_setPage, policy_setPolicy, if_pos ⟨rfl, rfl⟩]
      rw [hleft] at hok hfail
      refine ⟨id :: ids, err, u, ?_, ?_, fun g' hg' => ?_, fun hfit => ?_, fun hlong hlen => hfail (by omega) ?_⟩
      · simp only [popPages, get_bind_apply, hpop]
        rw [append_cons popped id ids]
        exact hu
      · rw [reverse_cons]
        exact (Popped.none.pop hpop).trans hpopped
      · rw [hkept g' hg', unqueue, policy_setPage, policy_setPolicy, if_neg (hg' ·.2)]
      · obtain ⟨herr, hids, hrest⟩ := hok (by omega)
        rw [hentries, take_succ_cons, map_cons]
        exact ⟨herr, by rw [hids], hrest⟩
      · rw [evictable, hleft]
        rw [evictable, length_eq, hentries, length_cons] at hlen
        rw [length_eq]
        omega

section

variable (lvl) (minNumPages : Nat → Nat) (s : Storage T)

/-- Up to the first pool group with too few pages, no request reaches beyond the first queue of its pool group. -/
def FitsFront : List Nat → Prop
  | [] => True
  | g :: gs => minNumPages g ≤ s.evictable lvl g → minNumPages g ≤ (s.policy lvl g).frontLength ∧ FitsFront gs

/-- There were enough pages in each pool group; the first ones are in `evicted`, and `t` has the others queued. -/
def Served (gs : List Nat) (evicted : Nat → List PageId) (t : Storage T) : Prop :=
  ∀ g ∈ gs, minNumPages g ≤ s.evictable lvl g ∧
    evicted g = ((s.policy lvl g).entries.take (minNumPages g)).map Prod.snd ∧
    (t.policy lvl g).entries = (s.policy lvl g).entries.drop (minNumPages g)

/-- How `evict` ends early. -/
def Stopped (gs : List Nat) (e : StorageError) : Prop :=
  e = .outOfPages ∧ FitsFront lvl minNumPages s gs ∧ (∃ g ∈ gs, s.evictable lvl g < minNumPages g) ∨
    e = .assertion .noVictim ∧ ¬ FitsFront lvl minNumPages s gs

end

variable {minNumPages : Nat → Nat} {gs : List Nat} {evicted : Nat → List PageId}

theorem evictLoop_eq (lvl : Nat) (minNumPages : Nat → Nat) (hgs : gs.Nodup)
    (hsame : ∀ g ∈ gs, evicted g = [] ∧ t.policy lvl g = s.policy lvl g) :
    ∃ evicted' err u, evictLoop lvl minNumPages gs evicted t = .ok (evicted', err) u ∧
      Popped lvl t (gs.flatMap evicted').reverse u ∧
      (∀ g ∉ gs, evicted' g = evicted g ∧ u.policy lvl g = t.policy lvl g) ∧
      err.elim (Served lvl minNumPages s gs evicted' u ∧ FitsFront lvl minNumPages s gs) (Stopped lvl minNumPages s gs) := by
  induction gs generalizing evicted t with
  | nil => exact ⟨evicted, none, t, rfl, .none, fun _ _ => ⟨rfl, rfl⟩, nofun, trivial⟩
  | cons g gs ih =>
    obtain ⟨hg, hgs⟩ := nodup_cons.1 hgs
    obtain ⟨⟨hnil, hpolicy⟩, hrest⟩ := forall_mem_cons.1 hsame
    have hne : ∀ g' ∈ gs, g' ≠ g := fun g' hg' heq => hg (heq ▸ hg')
    have hlater : ∀ ids, gs.flatMap (update evicted g ids) = [] := fun ids =>
      flatMap_eq_nil_iff.2 fun g' hg' => by rw [update_of_ne (hne g' hg'), (hrest g' hg').1]
    rw [evictLoop, get_bind_apply]
    rw [evictable, hpolicy]
    split
    · rename_i hshort
      refine ⟨evicted, some .outOfPages, t, rfl, ?_, fun _ _ => ⟨rfl, rfl⟩, .inl ⟨rfl, fun henough => ?_, g, (.head _), hshort⟩⟩
      · rw [flatMap_cons, ← update_eq_self g evicted, hlater, update_eq_self, hnil]
        exact .none
      · exact absurd hshort henough.not_gt
    · rename_i hshort
      have henough := not_lt.1 hshort
      obtain ⟨ids, err, u, hu, hpopped, hkept, hok, hfail⟩ := popPages_eq lvl g (minNumPages g) t []
      rw [hpolicy] at hok
      rw [evictable, hpolicy] at hfail
      rw [bind_ok hu]
      by_cases hfit : minNumPages g ≤ (s.policy lvl g).frontLength
      · obtain ⟨rfl, hids, hleft⟩ := hok hfit
        obtain ⟨evicted', err', v, hv, hpopped', hothers, hend⟩ := ih (t := u) hgs fun g' hg' =>
          ⟨(update_of_ne (hne g' hg') ids evicted).trans (hrest g' hg').1, (hkept g' (hne g' hg')).trans (hrest g' hg').2⟩
        obtain ⟨hmine, hmine'⟩ := hothers g hg
        rw [update_self] at hmine
        refine ⟨evicted', err', v, hv, ?_, fun g' hg' => ?_, ?_⟩
        · rw [flatMap_cons, hmine, reverse_append]
          exact hpopped.trans hpopped'
        · obtain ⟨hg, hg'⟩ := not_or.1 (mem_cons.not.1 hg')
          rw [(hothers g' hg').1, (hothers g' hg').2, hkept g' hg, update_of_ne hg]
          exact ⟨rfl, rfl⟩
        · cases err' with
          | none =>
            refine ⟨forall_mem_cons.2 ⟨⟨henough, hmine.trans hids, hmine' ▸ hleft⟩, hend.1⟩, fun _ => ⟨hfit, hend.2⟩⟩
          | some e =>
            refine hend.imp (fun ⟨he, hfits, g', hg', hless⟩ => ?_) fun ⟨he, hno⟩ => ⟨he, fun hfits => ?_⟩
            · exact ⟨he, fun _ => ⟨hfit, hfits⟩, g', .tail _ hg', hless⟩
            · exact hno (hfits henough).2
      · obtain rfl := hfail (not_le.1 hfit) henough
        refine ⟨_, _, u, rfl, ?_, fun g' hg' => ?_, .inr ⟨rfl, fun hfits => hfit (hfits henough).1⟩⟩
        · rw [flatMap_cons, update_self, hlater, append_nil]
          exact hpopped
        · have hg := (not_or.1 (mem_cons.not.1 hg')).1
          exact ⟨update_of_ne hg .., hkept g' hg⟩

theorem Served.page (h : Served lvl minNumPages s gs evicted t) (hsched : P.Scheduled lvl s) (hg : g ∈ gs)
    (hid : id ∈ evicted g) : ∃ p, s.page id = some p ∧ p.nodeRef = true ∧ p.cacheLevel = lvl ∧ P.poolGroup p = g := by
  rw [(h g hg).2.1] at hid
  obtain ⟨entry, hentry, rfl⟩ := mem_map.1 hid
  obtain ⟨p, hp, hnode, hlevel, hgroup, _⟩ := hsched.page (mem_of_mem_take hentry)
  exact ⟨p, hp, hnode, hlevel, hgroup⟩

theorem evict_ends (P : StorageParams T) (h : P.Scheduled lvl s) (minNumPages : Nat → Nat) :
    Ends (P.evict lvl minNumPages s)
      (fun evicted t => Popped lvl s (P.poolGroups.flatMap evicted).reverse t ∧
        Served lvl minNumPages s P.poolGroups evicted t ∧ FitsFront lvl minNumPages s P.poolGroups ∧
        ∀ g ∉ P.poolGroups, evicted g = [])
      (fun e t => t = s ∧ Stopped lvl minNumPages s P.poolGroups e) := by
  have hnodup : P.poolGroups.Nodup := nodup_range
  obtain ⟨evicted, err, t, ht, hpopped, hothers, hend⟩ := evictLoop_eq (s := s) lvl minNumPages hnodup fun _ _ => ⟨rfl, rfl⟩
  rw [evict, bind_ok ht]
  cases err with
  | none =>
    have hlevels : ((P.poolGroups.flatMap evicted).all fun id => (t.page id).all (·.cacheLevel = lvl)) = true := by
      rw [all_eq_true]
      intro id hid
      obtain ⟨g, hg, hmem⟩ := mem_flatMap.1 hid
      obtain ⟨p, hp, _, hlevel, _⟩ := hend.1.page h hg hmem
      rw [hpopped.page, if_pos (mem_reverse.2 hid), hp]
      exact decide_eq_true hlevel
    refine .of_ok ?_ ⟨hpopped, hend.1, hend.2, fun g hg => (hothers g hg).1⟩
    dsimp only
    rw [get_bind_apply, bind_ok (check_eq hlevels)]
    rfl
  | some e =>
    refine .of_error (e := e) ?_ ⟨rfl, hend⟩
    dsimp only
    rw [bind_ok (hpopped.restore h)]
    rfl

theorem evict_spec (P : StorageParams T) (h : P.Inv s) (lvl : Nat) (minNumPages : Nat → Nat) :
    Ends (P.evict lvl minNumPages s)
      (fun evicted t => P.Inv t ∧ Evicted P lvl evicted s t ∧
        (∀ g < P.numPoolGroups, (evicted g).length = minNumPages g) ∧ ∀ g, P.numPoolGroups ≤ g → evicted g = [])
      (fun e t => P.Inv t ∧ t.pool = s.pool ∧ t.page = s.page ∧
        ((∀ g < P.numPoolGroups, minNumPages g ≤ s.evictable lvl g) → e = .assertion .noVictim)) := by
  have hgroups : ∀ {g}, g ∈ P.poolGroups ↔ g < P.numPoolGroups := mem_range
  refine (evict_ends P (h.scheduled lvl) minNumPages).mono (fun evicted t ⟨hpopped, hserved, _, hothers⟩ => ?_) ?_
  · have hin : ∀ {g id}, id ∈ evicted g → g ∈ P.poolGroups := fun {g id} hid => by
      by_contra hout
      rw [hothers g hout] at hid
      cases hid
    refine ⟨h.popped hpopped, ⟨hpopped.pool, fun {g id} hid => ?_, fun {id} hid => ?_, fun g => ?_⟩, fun g hg => ?_,
      fun g hg => hothers g (hgroups.not.2 hg.not_gt)⟩
    · obtain ⟨p, hp, hnode, hlevel, hgroup⟩ := hserved.page (h.scheduled lvl) (hin hid) hid
      refine ⟨p, hp, hnode, hlevel, hgroup, ?_⟩
      rw [hpopped.page, if_pos (mem_reverse.2 (mem_flatMap.2 ⟨g, hin hid, hid⟩)), hp]
      rfl
    · rw [hpopped.page, if_neg]
      intro hmem
      obtain ⟨g, _, hg⟩ := mem_flatMap.1 (mem_reverse.1 hmem)
      exact hid g hg
    · by_cases hg : g ∈ P.poolGroups
      · rw [(hserved g hg).2.1]
        -- A page is queued under one priority only.
        refine .map_on (fun x hx y hy heq => ?_) ((h.queues.nodup lvl g).sublist (take_sublist _ _))
        obtain ⟨π, id⟩ := x
        obtain ⟨π', id'⟩ := y
        obtain rfl : id = id' := heq
        have hsame := ((h.scheduled lvl).queued (mem_of_mem_take hx)).symm.trans ((h.scheduled lvl).queued (mem_of_mem_take hy))
        cases hsame
        rfl
      · rw [hothers g hg]
        exact nodup_nil
    · obtain ⟨hle, heq, _⟩ := hserved g (hgroups.2 hg)
      rw [heq, length_map, length_take_of_le (by rwa [← length_eq])]
  · rintro e _ ⟨rfl, hstop⟩
    refine ⟨h, rfl, rfl, fun henough => ?_⟩
    rcases hstop with ⟨_, _, g, hg, hless⟩ | ⟨he, _⟩
    · exact absurd (henough g (hgroups.1 hg)) hless.not_ge
    · exact he

/-- With enough pages in every pool group `evict` takes the first ones of each; otherwise it raises `OutOfPagesError`
and changes nothing. -/
def EvictContract (P : StorageParams T) (lvl : Nat) (minNumPages : Nat → Nat) (s : Storage T) : Prop :=
  Ends (P.evict lvl minNumPages s)
    (fun evicted t => Served lvl minNumPages s P.poolGroups evicted t ∧ ∀ id, t.page id =
      if id ∈ P.poolGroups.flatMap evicted then (s.page id).map ({ · with nodeRef := false }) else s.page id)
    (fun e t => e = .outOfPages ∧ (∃ g ∈ P.poolGroups, s.evictable lvl g < minNumPages g) ∧ t = s)

/-- `evict` keeps its contract exactly where no request reaches beyond the first queue of its pool group before a pool
group has too few pages. -/
theorem evict_contract_iff (P : StorageParams T) (h : P.Scheduled lvl s) (minNumPages : Nat → Nat) :
    P.EvictContract lvl minNumPages s ↔ FitsFront lvl minNumPages s P.poolGroups := by
  have hends := evict_ends P h minNumPages
  unfold EvictContract
  cases hrun : P.evict lvl minNumPages s with
  | ok evicted t =>
    obtain ⟨hpopped, hserved, hfits, _⟩ := hends.ok hrun
    refine iff_of_true ⟨hserved, fun id => ?_⟩ hfits
    rw [hpopped.page]
    simp only [mem_reverse]
  | error e t =>
    obtain ⟨rfl, ⟨rfl, hfits, hshort⟩ | ⟨rfl, hno⟩⟩ := hends.error hrun
    · exact iff_of_true ⟨rfl, hshort, rfl⟩ hfits
    · exact iff_of_false (fun hcontract => nomatch hcontract.1) hno

def oneGroup : StorageParams PUnit where
  numCacheLevels := 1
  numPoolGroups := 1
  numLifeCycles := 1
  lifeCycleGrouping _ := 0
  complete _ _ := true
  unlinkPage tree _ _ _ := (tree, [])
  holdsPage _ _ _ := false

/-- Two committed pages that wait for eviction, with priorities 0 and 1. -/
def twoPriorities : Storage PUnit where
  pool _ _ := .ofCapacity 2
  policy _ g := if g = 0 then (empty.push 0 0 false).push 1 1 false else .empty
  page id := if id < 2 then some ⟨0, 0, ⟨id, none⟩, id, 0, 0, true, none, true⟩ else none
  nextPage := 2
  tree := ⟨⟩
  time := 0

theorem scheduled_twoPriorities : oneGroup.Scheduled 0 twoPriorities := by
  have hentries : ∀ g, (twoPriorities.policy 0 g).entries = if g = 0 then [(0, 0), (1, 1)] else [] := by
    intro g
    cases g <;> rfl
  refine ⟨fun {g π id} hmem => ?_, fun g => ?_⟩
  · rw [hentries] at hmem
    split at hmem
    · rename_i hg
      subst hg
      simp only [mem_cons, not_mem_nil, or_false] at hmem
      obtain ⟨rfl, rfl⟩ | ⟨rfl, rfl⟩ := hmem <;> rfl
    · cases hmem
  · rw [hentries]
    split <;> decide

theorem evict_contract_iff_onePage : oneGroup.EvictContract 0 (fun _ => 1) twoPriorities := by
  rw [evict_contract_iff _ scheduled_twoPriorities]
  exact fun _ => ⟨by decide, trivial⟩

/-- Both pages are asked for and both are there, but the second is of another priority. -/
theorem evict_stops_at_priority : oneGroup.Scheduled 0 twoPriorities ∧ twoPriorities.evictable 0 0 = 2 ∧
    ¬ oneGroup.EvictContract 0 (fun _ => 2) twoPriorities := by
  refine ⟨scheduled_twoPriorities, rfl, fun hcontract => ?_⟩
  have hstop : ∃ t, oneGroup.evict 0 (fun _ => 2) twoPriorities = .error (.assertion .noVictim) t := ⟨_, rfl⟩
  obtain ⟨t, hrun⟩ := hstop
  cases (hcontract.error hrun).1

end StorageParams

end TrtLlm.KvCache
