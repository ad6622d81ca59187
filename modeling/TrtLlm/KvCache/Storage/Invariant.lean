import TrtLlm.KvCache.Storage.Basic

/-!
# The storage invariant

Every live page owns a slot that its allocator counts as occupied, no two pages own the same slot, and the
eviction queues hold exactly the pages that have a node, each once, in the queue of its own level, pool group and
priority, and only pages that may be evicted.
-/

namespace TrtLlm.KvCache.StorageParams

open Option

variable {T : Type} (P : StorageParams T)

/-- The slot a page owns: cache level, pool group, slot id. -/
def place (p : Page) : Nat × Nat × Nat := (p.cacheLevel, P.poolGroup p, p.slot.slotId)

/-- The queue a page has its node in: cache level, pool group, priority. -/
def ticket (p : Page) : Option (Nat × Nat × Priority) :=
  if p.nodeRef then some (p.cacheLevel, P.poolGroup p, p.priority) else none

structure SlotsOk (s : Storage T) : Prop where
  pools : ∀ l g, (s.pool l g).Inv
  level_lt : ∀ {id p}, s.page id = some p → p.cacheLevel < P.numCacheLevels
  owns : ∀ {id p}, s.page id = some p → p.slot.slotId ∈ (s.pool p.cacheLevel (P.poolGroup p)).occupiedIds
  unique : ∀ {i j p q}, s.page i = some p → s.page j = some q → P.place p = P.place q → i = j

structure QueuesOk (s : Storage T) : Prop where
  queued : ∀ l g π id, (π, id) ∈ (s.policy l g).entries ↔ (s.page id).bind P.ticket = some (l, g, π)
  nodup : ∀ l g, (s.policy l g).entries.Nodup
  evictable : ∀ {id p}, s.page id = some p → p.nodeRef = true → P.isEvictable p = true

structure Inv (s : Storage T) : Prop where
  slots : P.SlotsOk s
  queues : P.QueuesOk s
  fresh : ∀ id, s.nextPage ≤ id → s.page id = none

/-- An occupied slot that no page owns: the caller has it. -/
def Loose (s : Storage T) (l g n : Nat) : Prop :=
  n ∈ (s.pool l g).occupiedIds ∧ ∀ {i q}, s.page i = some q → P.place q ≠ (l, g, n)

variable {P}

section

variable (s : Storage T)

@[simp] theorem page_setPage (id i : PageId) (p : Option Page) : (s.setPage id p).page i = if i = id then p else s.page i := rfl

@[simp] theorem pool_setPage (id : PageId) (p : Option Page) : (s.setPage id p).pool = s.pool := rfl

@[simp] theorem policy_setPage (id : PageId) (p : Option Page) : (s.setPage id p).policy = s.policy := rfl

@[simp] theorem page_setPool (l g : Nat) (a : SlotAllocator) : (s.setPool l g a).page = s.page := rfl

@[simp] theorem pool_setPool (l g l' g' : Nat) (a : SlotAllocator) :
    (s.setPool l g a).pool l' g' = if l' = l ∧ g' = g then a else s.pool l' g' := rfl

@[simp] theorem page_setPolicy (l g : Nat) (ps : PrioritizedEvictionPolicy) : (s.setPolicy l g ps).page = s.page := rfl

@[simp] theorem policy_setPolicy (l g l' g' : Nat) (ps : PrioritizedEvictionPolicy) :
    (s.setPolicy l g ps).policy l' g' = if l' = l ∧ g' = g then ps else s.policy l' g' := rfl

@[simp] theorem page_tick (n : Nat) : (s.tick n).page = s.page := rfl

@[simp] theorem pool_tick (n : Nat) : (s.tick n).pool = s.pool := rfl

end

variable {s t : Storage T} {id : PageId} {cond : Bool}

theorem page_setPage_eq (s : Storage T) (id : PageId) (p : Option Page) : (s.setPage id p).page id = p := if_pos rfl

theorem page_setPage_some {i : PageId} {o : Option Page} {q : Page} (hq : (s.setPage id o).page i = some q) :
    i = id ∧ o = some q ∨ i ≠ id ∧ s.page i = some q := by
  rw [page_setPage] at hq
  split at hq
  · exact .inl ⟨‹_›, hq⟩
  · exact .inr ⟨‹_›, hq⟩

theorem page_setPage_none {i : PageId} {q : Page} (hq : (s.setPage id none).page i = some q) :
    i ≠ id ∧ s.page i = some q :=
  (page_setPage_some hq).resolve_left fun heq => nomatch heq.2

theorem page_setPage_self {o : Option Page} (hp : s.page id = o) : (s.setPage id o).page = s.page := by
  funext i
  rw [page_setPage]
  split
  · rename_i hi
    rw [hi, hp]
  · rfl

theorem setPage_self {o : Option Page} (hp : s.page id = o) : s.setPage id o = s := by
  exact congrArg (Storage.mk _ _ · _ _ _) (page_setPage_self hp)

theorem page_setPage_again {o : Option Page} (hpage : t.page = (s.setPage id o).page) (p : Option Page) :
    (t.setPage id p).page = (s.setPage id p).page := by
  funext i
  rw [page_setPage, hpage, page_setPage, page_setPage]
  split <;> rfl

theorem setPage_setPage (s : Storage T) (id : PageId) (p q : Option Page) : (s.setPage id p).setPage id q = s.setPage id q := by
  rw [Storage.mk.injEq]
  exact ⟨rfl, rfl, page_setPage_again rfl q, rfl, rfl, rfl⟩

theorem setPool_congr (hpool : t.pool = s.pool) (l g : Nat) (a : SlotAllocator) :
    (t.setPool l g a).pool = (s.setPool l g a).pool := by
  funext l' g'
  rw [pool_setPool, pool_setPool, hpool]

variable {p q : Page} {l g : Nat} {a : SlotAllocator}

theorem forall_pool_setPool {R : Nat → Nat → SlotAllocator → Prop} (hrest : ∀ l g, R l g (s.pool l g)) (ha : R l g a)
    (l' g' : Nat) : R l' g' ((s.setPool l g a).pool l' g') := by
  rw [pool_setPool]
  split
  · rename_i heq
    rw [heq.1, heq.2]
    exact ha
  · exact hrest l' g'

theorem getPage_eq (hp : s.page id = some p) : getPage id s = .ok p s := by
  rw [getPage, hp]

variable {error : StorageError} {m : StorageM T PUnit}

theorem check_eq (h : cond = true) : check cond error s = .ok ⟨⟩ s := by
  rw [check, if_pos h]

theorem onlyIf_true (h : cond = true) : onlyIf cond m s = m s := by
  rw [onlyIf, if_pos h]

theorem onlyIf_false (h : cond = false) : onlyIf cond m s = .ok ⟨⟩ s := by
  rw [onlyIf, if_neg (by rw [h]; exact Bool.false_ne_true)]
  rfl

theorem check_error (h : cond = false) : check cond error s = .error error s := by
  rw [check, if_neg (by rw [h]; exact Bool.false_ne_true)]

/-! ### Changes that keep the two halves of the invariant -/

theorem SlotsOk.congr (h : P.SlotsOk s) (hpool : t.pool = s.pool)
    (hplace : ∀ id, (t.page id).map P.place = (s.page id).map P.place) : P.SlotsOk t := by
  have hback : ∀ {id q}, t.page id = some q → ∃ p, s.page id = some p ∧ P.place p = P.place q := by
    intro id q hq
    have heq := hplace id
    rw [hq] at heq
    exact map_eq_some_iff.1 heq.symm
  refine ⟨fun l g => by rw [hpool]; exact h.pools l g, ?_, ?_, ?_⟩
  · intro id q hq
    obtain ⟨p, hp, heq⟩ := hback hq
    rw [← (Prod.mk.inj heq).1]
    exact h.level_lt hp
  · intro id q hq
    obtain ⟨p, hp, heq⟩ := hback hq
    obtain ⟨hlevel, hgroup, hid⟩ := And.imp_right Prod.mk.inj (Prod.mk.inj heq)
    rw [hpool, ← hlevel, ← hgroup, ← hid]
    exact h.owns hp
  · intro i j q r hq hr heq
    obtain ⟨p, hp, hpq⟩ := hback hq
    obtain ⟨p', hp', hpr⟩ := hback hr
    exact h.unique hp hp' (by rw [hpq, hpr, heq])

theorem QueuesOk.congr (h : P.QueuesOk s) (hpolicy : t.policy = s.policy)
    (hticket : ∀ id, (t.page id).bind P.ticket = (s.page id).bind P.ticket)
    (hevictable : ∀ {id q}, t.page id = some q → q.nodeRef = true → P.isEvictable q = true) : P.QueuesOk t := by
  refine ⟨fun l g π id => ?_, fun l g => by rw [hpolicy]; exact h.nodup l g, hevictable⟩
  rw [hpolicy, hticket]
  exact h.queued l g π id

theorem ticket_eq_none (h : p.nodeRef = false) : P.ticket p = none := by
  rw [ticket, h, if_neg Bool.false_ne_true]

theorem ticket_eq_some (h : p.nodeRef = true) : P.ticket p = some (p.cacheLevel, P.poolGroup p, p.priority) := by
  rw [ticket, if_pos h]

theorem nodeRef_of_ticket {x : Nat × Nat × Priority} (h : P.ticket p = some x) : p.nodeRef = true := by
  by_contra hno
  rw [ticket_eq_none (Bool.eq_false_iff.2 hno)] at h
  cases h

theorem SlotsOk.rewrite (h : P.SlotsOk s) (hp : s.page id = some p) (hpool : t.pool = s.pool)
    (hpage : t.page = (s.setPage id (some q)).page) (hplace : P.place q = P.place p) : P.SlotsOk t := by
  refine h.congr hpool fun i => ?_
  rw [hpage]
  by_cases hi : i = id
  · rw [page_setPage, if_pos hi, hi, hp, map_some, map_some, hplace]
  · rw [page_setPage, if_neg hi]

variable (h : P.Inv s) (hp : s.page id = some p)

include h hp

theorem Inv.fresh_rewrite {q : Option Page} (hnext : t.nextPage = s.nextPage) (hpage : t.page = (s.setPage id q).page) :
    ∀ i, t.nextPage ≤ i → t.page i = none := by
  intro i hi
  have hnone := h.fresh i (hnext ▸ hi)
  rw [hpage, page_setPage, if_neg (fun heq => by rw [heq, hp] at hnone; cases hnone)]
  exact hnone

theorem Inv.setPage (hplace : P.place q = P.place p) (hticket : P.ticket q = P.ticket p)
    (hevictable : q.nodeRef = true → P.isEvictable q = true) : P.Inv (s.setPage id (some q)) where
  slots := h.slots.rewrite hp rfl rfl hplace
  queues := by
    refine h.queues.congr rfl (fun i => ?_) fun {i r} hr hnode => ?_
    · by_cases hi : i = id
      · rw [page_setPage, if_pos hi, hi, hp, bind_some, bind_some, hticket]
      · rw [page_setPage, if_neg hi]
    · rcases page_setPage_some hr with ⟨_, ⟨⟩⟩ | ⟨_, hr⟩
      · exact hevictable hnode
      · exact h.queues.evictable hr hnode
  fresh := h.fresh_rewrite hp rfl rfl

/-! ### Queue operations -/

theorem Inv.requeue {queue : PrioritizedEvictionPolicy} {nodeRef : Bool}
    (hevictable : nodeRef = true → P.isEvictable p = true) (hnodup : queue.entries.Nodup)
    (hself : ∀ π, (π, id) ∈ queue.entries ↔ nodeRef = true ∧ p.priority = π)
    (hothers : ∀ π i, i ≠ id → ((π, i) ∈ queue.entries ↔ (π, i) ∈ (s.policy p.cacheLevel (P.poolGroup p)).entries)) :
    P.Inv ((s.setPolicy p.cacheLevel (P.poolGroup p) queue).setPage id (some { p with nodeRef })) where
  slots := h.slots.rewrite hp rfl rfl rfl
  queues := by
    refine ⟨fun l g π i => ?_, fun l g => ?_, fun {i q} hq hnode => ?_⟩
    · rw [policy_setPage, policy_setPolicy, page_setPage]
      by_cases hi : i = id
      · have hold : (π, id) ∈ (s.policy l g).entries → l = p.cacheLevel ∧ g = P.poolGroup p := by
          rw [h.queues.queued, hp, bind_some, ticket]
          grind
        have hgroup : P.poolGroup { p with nodeRef } = P.poolGroup p := rfl
        rw [if_pos hi, bind_some, ticket]
        grind
      · rw [if_neg hi, page_setPolicy, ← h.queues.queued]
        split
        · rename_i heq
          rw [heq.1, heq.2, hothers π i hi]
        · rfl
    · rw [policy_setPage, policy_setPolicy]
      split
      · exact hnodup
      · exact h.queues.nodup l g
    · rcases page_setPage_some hq with ⟨_, ⟨⟩⟩ | ⟨_, hq⟩
      · exact hevictable hnode
      · exact h.queues.evictable hq hnode
  fresh := h.fresh_rewrite hp rfl rfl

theorem Inv.push (hnode : p.nodeRef = false) (hevictable : P.isEvictable p = true) (first : Bool) :
    P.Inv ((s.setPolicy p.cacheLevel (P.poolGroup p)
      ((s.policy p.cacheLevel (P.poolGroup p)).push p.priority id first)).setPage id (some { p with nodeRef := true })) := by
  have hperm := (s.policy p.cacheLevel (P.poolGroup p)).entries_push p.priority id first
  have hold : ∀ π, (π, id) ∉ (s.policy p.cacheLevel (P.poolGroup p)).entries := by
    intro π hmem
    rw [h.queues.queued, hp, bind_some, ticket_eq_none hnode] at hmem
    cases hmem
  refine h.requeue hp (fun _ => hevictable) ?_ (fun π => ?_) fun π i hi => ?_
  · exact hperm.nodup_iff.2 (List.nodup_cons.2 ⟨hold _, h.queues.nodup _ _⟩)
  · simp [hperm.mem_iff, hold π, eq_comm]
  · simp [hperm.mem_iff, hi]

theorem Inv.unqueue (hnode : p.nodeRef = true) {left : PrioritizedEvictionPolicy}
    (hperm : (s.policy p.cacheLevel (P.poolGroup p)).entries.Perm ((p.priority, id) :: left.entries)) :
    P.Inv ((s.setPolicy p.cacheLevel (P.poolGroup p) left).setPage id (some { p with nodeRef := false })) := by
  obtain ⟨hgone, hleft⟩ := List.nodup_cons.1 (hperm.nodup_iff.1 (h.queues.nodup _ _))
  refine h.requeue hp nofun hleft (fun π => iff_of_false (fun hmem => hgone ?_) nofun) fun π i hi => ?_
  · have hold := hperm.mem_iff.2 (.tail _ hmem)
    rw [h.queues.queued, hp, bind_some, ticket_eq_some hnode, some_inj] at hold
    rwa [(Prod.mk.inj (Prod.mk.inj hold).2).2]
  · simp [hperm.mem_iff, hi]

/-- The page `id` became `q`; the other pages and the pools are as they were. -/
structure Rewritten (P : StorageParams T) (s : Storage T) (id : PageId) (q : Page) (t : Storage T) : Prop where
  inv : P.Inv t
  pool : t.pool = s.pool
  page : t.page = (s.setPage id (some q)).page

theorem scheduleIn_spec (hnode : p.nodeRef = false) (hevictable : P.isEvictable p = true) (first : Bool) :
    ∃ t, P.scheduleIn first p.cacheLevel id s = .ok ⟨⟩ t ∧ P.Rewritten s id { p with nodeRef := true } t := by
  refine ⟨_, ?_, h.push hp hnode hevictable first, rfl, rfl⟩
  rw [scheduleIn, bind_ok (getPage_eq hp), bind_ok (check_eq (by rw [hnode]; rfl)), bind_ok (check_eq (decide_eq_true rfl))]
  rfl

theorem scheduleForEviction_of_evictable (hnode : p.nodeRef = false) (hevictable : P.isEvictable p = true) :
    ∃ t, P.scheduleForEviction id s = .ok ⟨⟩ t ∧ P.Rewritten s id { p with nodeRef := true } t := by
  rw [scheduleForEviction, bind_ok (getPage_eq hp), onlyIf_true hevictable]
  exact scheduleIn_spec h hp hnode hevictable false

omit h hp

theorem scheduleForEviction_of_not (hp : s.page id = some p) (hevictable : P.isEvictable p = false) :
    P.scheduleForEviction id s = .ok ⟨⟩ s := by
  rw [scheduleForEviction, bind_ok (getPage_eq hp), onlyIf_false hevictable]

variable (h : P.Inv s) (hp : s.page id = some p)

include h hp

theorem excludeFromEviction_rewrite (hnode : p.nodeRef = true) (hplace : P.place q = P.place p)
    (hticket : P.ticket q = P.ticket p) :
    ∃ t, P.excludeFromEviction id (s.setPage id (some q)) = .ok ⟨⟩ t ∧ P.Rewritten s id { q with nodeRef := false } t := by
  have hmem : (p.priority, id) ∈ (s.policy p.cacheLevel (P.poolGroup p)).entries := by
    rw [h.queues.queued, hp, bind_some, ticket_eq_some hnode]
  obtain ⟨left, hleft, hperm⟩ := PrioritizedEvictionPolicy.remove_spec _ hmem
  have hnode' : q.nodeRef = true := nodeRef_of_ticket (hticket.trans (ticket_eq_some hnode))
  rw [ticket_eq_some hnode, ticket_eq_some hnode', some_inj, Prod.mk.injEq, Prod.mk.injEq] at hticket
  obtain ⟨hlevel, hgroup, hpriority⟩ := hticket
  have hout := h.unqueue hp hnode hperm
  have hend : P.Inv (((s.setPolicy p.cacheLevel (P.poolGroup p) left).setPage id
      (some { p with nodeRef := false })).setPage id (some { q with nodeRef := false })) := by
    refine hout.setPage (page_setPage_eq ..) hplace ?_ fun hyes => by cases hyes
    rw [ticket_eq_none rfl, ticket_eq_none rfl]
  have hleft' : ((s.setPage id (some q)).policy q.cacheLevel (P.poolGroup q)).remove q.priority id = some left := by
    rw [policy_setPage, hlevel, hgroup, hpriority, hleft]
  have hpolicy : s.setPolicy q.cacheLevel (P.poolGroup q) left = s.setPolicy p.cacheLevel (P.poolGroup p) left := by
    rw [hlevel, hgroup]
  refine ⟨_, ?_, hend, rfl, ?_⟩
  · rw [excludeFromEviction, bind_ok (getPage_eq (page_setPage_eq s id (some q))), bind_ok (check_eq hnode')]
    rw [get_bind_apply, hleft']
    change EStateM.Result.ok _ (((s.setPolicy _ _ _).setPage id _).setPage id _) = _
    rw [setPage_setPage, setPage_setPage, hpolicy]
  · exact page_setPage_again rfl _

theorem excludeIfQueued_rewrite (hplace : P.place q = P.place p) (hticket : P.ticket q = P.ticket p)
    (hnode : q.nodeRef = p.nodeRef) :
    ∃ t, onlyIf p.nodeRef (P.excludeFromEviction id) (s.setPage id (some q)) = .ok ⟨⟩ t ∧
      P.Rewritten s id { q with nodeRef := false } t := by
  by_cases hqueued : p.nodeRef = true
  · rw [onlyIf_true hqueued]
    exact excludeFromEviction_rewrite h hp hqueued hplace hticket
  · have hno := Bool.eq_false_iff.2 hqueued
    refine ⟨_, onlyIf_false hno, h.setPage hp hplace hticket fun hyes => absurd (hnode ▸ hyes) hqueued, rfl, ?_⟩
    rw [← hno, ← hnode]

theorem excludeFromEviction_spec (hnode : p.nodeRef = true) :
    ∃ t, P.excludeFromEviction id s = .ok ⟨⟩ t ∧ P.Rewritten s id { p with nodeRef := false } t := by
  simpa only [setPage_self hp] using excludeFromEviction_rewrite h hp hnode rfl rfl

theorem excludeIfQueued_spec :
    ∃ t, onlyIf p.nodeRef (P.excludeFromEviction id) s = .ok ⟨⟩ t ∧ P.Rewritten s id { p with nodeRef := false } t := by
  simpa only [setPage_self hp] using excludeIfQueued_rewrite h hp rfl rfl rfl

omit h hp

structure RewrittenAll (P : StorageParams T) (rel : Page → Page → Prop) (s : Storage T) (ids : List PageId)
    (t : Storage T) : Prop where
  inv : P.Inv t
  pool : t.pool = s.pool
  others : ∀ i, i ∉ ids → t.page i = s.page i
  mine : ∀ id ∈ ids, ∀ p, s.page id = some p → ∃ q, t.page id = some q ∧ rel p q

/-- A loop over distinct pages in which every round rewrites its own page. -/
theorem forM_rewrite {m : PageId → StorageM T PUnit} {pre : Page → Prop} {rel : Page → Page → Prop}
    (hround : ∀ {s id p}, P.Inv s → s.page id = some p → pre p → ∃ t q, m id s = .ok ⟨⟩ t ∧ P.Rewritten s id q t ∧ rel p q)
    {ids : List PageId} (h : P.Inv s) (hnodup : ids.Nodup) (hids : ∀ id ∈ ids, ∃ p, s.page id = some p ∧ pre p) :
    ∃ t, ids.forM m s = .ok ⟨⟩ t ∧ P.RewrittenAll rel s ids t := by
  induction ids generalizing s with
  | nil => exact ⟨s, rfl, h, rfl, fun _ _ => rfl, nofun⟩
  | cons id ids ih =>
    obtain ⟨hid, hnodup⟩ := List.nodup_cons.1 hnodup
    obtain ⟨p, hp, hpre⟩ := hids id (.head _)
    obtain ⟨u, q, hu, ⟨hinv, hpool, hpage⟩, hrel⟩ := hround h hp hpre
    have hkept : ∀ i, i ≠ id → u.page i = s.page i := by
      intro i hi
      rw [hpage, page_setPage, if_neg hi]
    have hne : ∀ i ∈ ids, i ≠ id := fun i hi heq => hid (heq ▸ hi)
    obtain ⟨t, ht, hend, hpools, hothers, hrest⟩ := ih hinv hnodup fun i hi => by
      rw [hkept i (hne i hi)]
      exact hids i (.tail _ hi)
    refine ⟨t, (forM_cons_ok hu).trans ht, hend, hpools.trans hpool, fun i hi => ?_, fun i hi r hr => ?_⟩
    · rw [List.mem_cons, not_or] at hi
      rw [hothers i hi.2, hkept i hi.1]
    · rcases List.mem_cons.1 hi with rfl | hi
      · cases hp.symm.trans hr
        exact ⟨q, by rw [hothers i hid, hpage, page_setPage_eq], hrel⟩
      · exact hrest i hi r ((hkept i (hne i hi)).trans hr)

/-! ### Pages and slots that come and go -/

theorem Inv.forget (h : P.Inv s) (hp : s.page id = some p) (hnode : p.nodeRef = false) :
    P.Inv (s.setPage id none) ∧ Loose P (s.setPage id none) p.cacheLevel (P.poolGroup p) p.slot.slotId := by
  have hold : ∀ {i q}, (s.setPage id none).page i = some q → s.page i = some q := fun hq => (page_setPage_none hq).2
  refine ⟨⟨⟨h.slots.pools, fun hq => h.slots.level_lt (hold hq), fun hq => h.slots.owns (hold hq),
    fun hq hr => h.slots.unique (hold hq) (hold hr)⟩, ?_, h.fresh_rewrite hp rfl rfl⟩, h.slots.owns hp,
    fun {i q} hq heq => (page_setPage_none hq).1 (h.slots.unique (hold hq) hp heq)⟩
  refine h.queues.congr rfl (fun i => ?_) fun hq => h.queues.evictable (hold hq)
  rw [page_setPage]
  split
  · rename_i hi
    rw [hi, hp, bind_some, ticket_eq_none hnode, bind_none]
  · rfl

theorem Inv.insert (h : P.Inv s) (hnone : s.page id = none) {next : PageId} (hnext : s.nextPage ≤ next)
    (hid : id < next) (hlevel : p.cacheLevel < P.numCacheLevels)
    (hloose : Loose P s p.cacheLevel (P.poolGroup p) p.slot.slotId) (hnode : p.nodeRef = false) :
    P.Inv { s.setPage id (some p) with nextPage := next } := by
  refine ⟨⟨h.slots.pools, fun hq => ?_, fun hq => ?_, fun hq hr heq => ?_⟩, ?_, fun i hi => ?_⟩
  · rcases page_setPage_some hq with ⟨_, ⟨⟩⟩ | ⟨_, hq⟩
    · exact hlevel
    · exact h.slots.level_lt hq
  · rcases page_setPage_some hq with ⟨_, ⟨⟩⟩ | ⟨_, hq⟩
    · exact hloose.1
    · exact h.slots.owns hq
  · rcases page_setPage_some hq with ⟨hi, ⟨⟩⟩ | ⟨_, hold⟩ <;> rcases page_setPage_some hr with ⟨hj, ⟨⟩⟩ | ⟨_, hold'⟩
    · rw [hi, hj]
    · exact absurd heq.symm (hloose.2 hold')
    · exact absurd heq (hloose.2 hold)
    · exact h.slots.unique hold hold' heq
  · refine h.queues.congr rfl (fun i => ?_) fun hq hqueued => ?_
    · rw [page_setPage]
      split
      · rename_i hi
        rw [hi, hnone, bind_some, ticket_eq_none hnode, bind_none]
      · rfl
    · rcases page_setPage_some hq with ⟨_, ⟨⟩⟩ | ⟨_, hq⟩
      · rw [hnode] at hqueued
        cases hqueued
      · exact h.queues.evictable hq hqueued
  · rw [page_setPage, if_neg (hid.trans_le hi).ne']
    exact h.fresh i (hnext.trans hi)

theorem Inv.setPool (h : P.Inv s) (ha : a.Inv)
    (howns : ∀ {i p}, s.page i = some p → p.slot.slotId ∈ (s.pool l g).occupiedIds → P.place p = (l, g, p.slot.slotId) →
      p.slot.slotId ∈ a.occupiedIds)
    (n : Nat) : P.Inv ((s.setPool l g a).tick n) := by
  refine ⟨⟨fun l' g' => ?_, h.slots.level_lt, fun {i p} hp => ?_, h.slots.unique⟩,
    h.queues.congr rfl (fun _ => rfl) h.queues.evictable, h.fresh⟩
  · exact forall_pool_setPool (R := fun _ _ a => a.Inv) h.slots.pools ha l' g'
  · have hmine := h.slots.owns hp
    rw [pool_tick, pool_setPool]
    split
    · rename_i heq
      rw [heq.1, heq.2] at hmine
      exact howns hp hmine (by rw [place, heq.1, heq.2])
    · exact hmine

theorem Inv.free (h : P.Inv s) {k : Nat} (hloose : Loose P s l g k) (ha : a.Inv)
    (hocc : a.occupiedIds = (s.pool l g).occupiedIds.erase k) (n : Nat) : P.Inv ((s.setPool l g a).tick n) := by
  refine h.setPool ha (fun hp hmine hplace => ?_) n
  rw [hocc, Finset.mem_erase]
  exact ⟨fun heq => hloose.2 hp (heq ▸ hplace), hmine⟩

theorem Inv.erase (h : P.Inv s) (hp : s.page id = some p) (hnode : p.nodeRef = false)
    (ha : a.Inv) (hocc : a.occupiedIds = (s.pool p.cacheLevel (P.poolGroup p)).occupiedIds.erase p.slot.slotId)
    (n : Nat) : P.Inv (((s.setPool p.cacheLevel (P.poolGroup p) a).tick n).setPage id none) := by
  obtain ⟨hgone, hloose⟩ := h.forget hp hnode
  exact hgone.free hloose ha hocc n

/-- The allocator of a pool group after slots of it were given back. -/
structure PoolFreed (a b : SlotAllocator) (n : Nat) : Prop where
  capacity : b.capacity = a.capacity
  target : b.targetCapacity = a.targetCapacity
  free : a.numFreeSlots ≤ b.numFreeSlots
  used : b.occupiedIds.card + n = a.occupiedIds.card

theorem PoolFreed.refl (a : SlotAllocator) : PoolFreed a a 0 := ⟨rfl, rfl, le_rfl, rfl⟩

theorem PoolFreed.used_le {b : SlotAllocator} {n : Nat} (h : PoolFreed a b n) :
    b.occupiedIds.card ≤ a.occupiedIds.card :=
  (Nat.le_add_right _ _).trans h.used.le

theorem PoolFreed.setPool {n : Nat} (h : PoolFreed (s.pool l g) a n) :
    ∀ l' g', ∃ k, PoolFreed (s.pool l' g') ((s.setPool l g a).pool l' g') k :=
  forall_pool_setPool (R := fun l g b => ∃ k, PoolFreed (s.pool l g) b k) (fun _ _ => ⟨0, .refl _⟩) ⟨n, h⟩

theorem releaseTo_spec (P : StorageParams T) (slot : Slot) (hpool : (s.pool l g).Inv)
    (hslot : slot.slotId ∈ (s.pool l g).occupiedIds) :
    ∃ a, P.releaseTo l g slot s = .ok ⟨⟩ ((s.setPool l g a).tick 1) ∧ a.Inv ∧
      a.occupiedIds = (s.pool l g).occupiedIds.erase slot.slotId ∧ PoolFreed (s.pool l g) a 1 := by
  obtain ⟨a, hok, hinv, hocc, hcap, htarget, hfree⟩ := hpool.release_spec (P.complete s.time) hslot
  refine ⟨a, by rw [releaseTo, hok], hinv, hocc, hcap, htarget, hfree, ?_⟩
  rw [hocc]
  exact Finset.card_erase_add_one hslot

theorem freePage_spec (h : P.Inv s) (hp : s.page id = some p) (hnode : p.nodeRef = false)
    (hplace : P.place q = P.place p) :
    ∃ t a, P.freePage id q s = .ok ⟨⟩ t ∧ P.Inv t ∧ t.page = (s.setPage id none).page ∧
      t.pool = (s.setPool p.cacheLevel (P.poolGroup p) a).pool ∧
      PoolFreed (s.pool p.cacheLevel (P.poolGroup p)) a 1 := by
  obtain ⟨hlevel, hgroup, hslot⟩ := And.imp_right Prod.mk.inj (Prod.mk.inj hplace)
  obtain ⟨a, hok, hinv, hocc, hfreed⟩ := releaseTo_spec P q.slot (h.slots.pools p.cacheLevel (P.poolGroup p))
    (by rw [hslot]; exact h.slots.owns hp)
  refine ⟨_, a, ?_, h.erase hp hnode hinv (by rw [hocc, hslot]) 1, rfl, rfl, hfreed⟩
  rw [freePage, hlevel, hgroup, bind_ok hok]
  rfl

end TrtLlm.KvCache.StorageParams
