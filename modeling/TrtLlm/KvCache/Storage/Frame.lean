import TrtLlm.KvCache.Storage.Invariant

/-!
# What an operation leaves alone

Making room moves some pages and lets others end, and the end of a page may make the radix tree give up more. The
relations here bound that: `Frame` for a whole operation on the levels from `lvl` down, `Shed` for the end of
pages alone.
-/

namespace TrtLlm.KvCache

open Storage

def Storage.used {T : Type} (s : Storage T) (l g : Nat) : Nat := (s.pool l g).occupiedIds.card

namespace StorageParams

variable {T : Type} {P : StorageParams T}

/-- The page is the same one, where it was or further down. -/
structure Follows (p q : Page) : Prop where
  lifeCycle : q.lifeCycle = p.lifeCycle
  priority : q.priority = p.priority
  holders : q.holders = p.holders
  locks : q.locks = p.locks
  committed : q.committed = p.committed
  level : p.cacheLevel ≤ q.cacheLevel

theorem Follows.refl (p : Page) : Follows p p := ⟨rfl, rfl, rfl, rfl, rfl, le_rfl⟩

variable {p q : Page} {id : PageId} {s : Storage T} {ids : List PageId}

theorem Follows.trans {r : Page} (h : Follows p q) (h' : Follows q r) : Follows p r where
  lifeCycle := h'.lifeCycle.trans h.lifeCycle
  priority := h'.priority.trans h.priority
  holders := h'.holders.trans h.holders
  locks := h'.locks.trans h.locks
  committed := h'.committed.trans h.committed
  level := h.level.trans h'.level

theorem Follows.status (h : Follows p q) : q.status = p.status := by
  rw [Page.status, Page.status, h.holders, h.locks]

theorem Follows.isEvictable (h : Follows p q) (hlevel : q.cacheLevel = p.cacheLevel) : P.isEvictable q = P.isEvictable p := by
  rw [StorageParams.isEvictable, StorageParams.isEvictable, h.status, h.committed, hlevel]

/-- From `s` to `t` no page was made or moved up; only droppable pages ended, and only queued ones or those in `X`; a
page outside `X` that was not queued, or above `lvl`, stayed in its slot, perhaps out of its block; and no slot above
`lvl` was taken. -/
structure Frame (lvl : Nat) (X : PageId → Prop) (s t : Storage T) : Prop where
  births : ∀ {id q}, t.page id = some q → ∃ p, s.page id = some p ∧ Follows p q
  deaths : ∀ {id p}, s.page id = some p → t.page id = none → p.status = .droppable ∧ (p.nodeRef = true ∨ X id)
  stays : ∀ {id p q}, s.page id = some p → t.page id = some q → ¬ X id →
    (p.nodeRef = false ∨ p.cacheLevel < lvl) → q = { p with block := q.block }
  capacity : ∀ l g, (t.pool l g).capacity = (s.pool l g).capacity
  target : ∀ l g, (t.pool l g).targetCapacity = (s.pool l g).targetCapacity
  free_le : ∀ l g, l < lvl → s.free l g ≤ t.free l g
  used_le : ∀ l g, l < lvl → t.used l g ≤ s.used l g

namespace Frame

variable {lvl : Nat} {X Y : PageId → Prop} {s t u : Storage T}

theorem refl (lvl : Nat) (X : PageId → Prop) (s : Storage T) : Frame lvl X s s where
  births := fun {_ q} hq => ⟨q, hq, .refl q⟩
  deaths := by
    intro id p hp hnone
    rw [hp] at hnone
    cases hnone
  stays := by
    intro id p q hp hq _ _
    rw [hp] at hq
    cases hq
    rfl
  capacity := fun _ _ => rfl
  target := fun _ _ => rfl
  free_le := fun _ _ _ => le_rfl
  used_le := fun _ _ _ => le_rfl

variable (h : Frame lvl X s t)

include h

theorem mono {lvl' : Nat} (hlvl : lvl' ≤ lvl) (hX : ∀ id, X id → Y id) : Frame lvl' Y s t where
  births := h.births
  deaths := fun hp hnone => ⟨(h.deaths hp hnone).1, (h.deaths hp hnone).2.imp_right (hX _)⟩
  stays := fun hp hq hY hfree => h.stays hp hq (fun hx => hY (hX _ hx)) (hfree.imp_right fun hlt => hlt.trans_le hlvl)
  capacity := h.capacity
  target := h.target
  free_le := fun l g hl => h.free_le l g (hl.trans_le hlvl)
  used_le := fun l g hl => h.used_le l g (hl.trans_le hlvl)

theorem follows {q : Page} (hp : s.page id = some p) (hq : t.page id = some q) : Follows p q := by
  obtain ⟨p', hp', hpq⟩ := h.births hq
  cases hp.symm.trans hp'
  exact hpq

theorem page_eq_none (hnone : s.page id = none) : t.page id = none := by
  cases hq : t.page id with
  | none => rfl
  | some q =>
    obtain ⟨p, hp, _⟩ := h.births hq
    rw [hnone] at hp
    cases hp

/-- A page that was not queued and is not in `X` is still there, in its slot. -/
theorem stay (hp : s.page id = some p) (hnode : p.nodeRef = false) (hX : ¬ X id) :
    ∃ b, t.page id = some { p with block := b } := by
  cases hq : t.page id with
  | none =>
    rcases (h.deaths hp hq).2 with hqueued | hx
    · rw [hnode] at hqueued
      cases hqueued
    · exact absurd hx hX
  | some q => exact ⟨q.block, congrArg some (h.stays hp hq hX (.inl hnode))⟩

theorem trans (h' : Frame lvl X t u) : Frame lvl X s u where
  births := by
    intro id r hr
    obtain ⟨q, hq, hqr⟩ := h'.births hr
    obtain ⟨p, hp, hpq⟩ := h.births hq
    exact ⟨p, hp, hpq.trans hqr⟩
  deaths := by
    intro id p hp hnone
    cases hq : t.page id with
    | none => exact h.deaths hp hq
    | some q =>
      obtain ⟨hstatus, hcause⟩ := h'.deaths hq hnone
      refine ⟨(h.follows hp hq).status ▸ hstatus, ?_⟩
      by_cases hx : X id
      · exact .inr hx
      by_cases hnode : p.nodeRef = true
      · exact .inl hnode
      · have hsame := h.stays hp hq hx (.inl (Bool.eq_false_iff.2 hnode))
        rw [hsame] at hcause
        exact hcause
  stays := by
    intro id p r hp hr hx hfree
    obtain ⟨q, hq, _⟩ := h'.births hr
    have hsame := h.stays hp hq hx hfree
    have hnext := h'.stays hq hr hx (by rw [hsame]; exact hfree)
    rw [hnext, hsame]
  capacity := fun l g => (h'.capacity l g).trans (h.capacity l g)
  target := fun l g => (h'.target l g).trans (h.target l g)
  free_le := fun l g hl => (h.free_le l g hl).trans (h'.free_le l g hl)
  used_le := fun l g hl => (h'.used_le l g hl).trans (h.used_le l g hl)

end Frame

/-- Pages only ended or left their blocks; those that ended were droppable, and queued or in `X`. -/
structure Shed (X : PageId → Prop) (s t : Storage T) : Prop where
  births : ∀ {id q}, t.page id = some q → ∃ p, s.page id = some p ∧ q = { p with block := q.block }
  deaths : ∀ {id p}, s.page id = some p → t.page id = none → p.status = .droppable ∧ (p.nodeRef = true ∨ X id)
  capacity : ∀ l g, (t.pool l g).capacity = (s.pool l g).capacity
  target : ∀ l g, (t.pool l g).targetCapacity = (s.pool l g).targetCapacity
  free_le : ∀ l g, s.free l g ≤ t.free l g
  used_le : ∀ l g, t.used l g ≤ s.used l g

namespace Shed

variable {X Y : PageId → Prop} {s t u : Storage T}

theorem refl (X : PageId → Prop) (s : Storage T) : Shed X s s where
  births := fun {_ q} hq => ⟨q, hq, rfl⟩
  deaths := by
    intro id p hp hnone
    rw [hp] at hnone
    cases hnone
  capacity := fun _ _ => rfl
  target := fun _ _ => rfl
  free_le := fun _ _ => le_rfl
  used_le := fun _ _ => le_rfl

variable (h : Shed X s t)

include h

theorem same {q : Page} (hp : s.page id = some p) (hq : t.page id = some q) : q = { p with block := q.block } := by
  obtain ⟨p', hp', hsame⟩ := h.births hq
  cases hp.symm.trans hp'
  exact hsame

theorem trans (h' : Shed X t u) : Shed X s u where
  births := by
    intro id r hr
    obtain ⟨q, hq, hqr⟩ := h'.births hr
    obtain ⟨p, hp, hpq⟩ := h.births hq
    exact ⟨p, hp, by rw [hqr, hpq]⟩
  deaths := by
    intro id p hp hnone
    cases hq : t.page id with
    | none => exact h.deaths hp hq
    | some q =>
      have hend := h'.deaths hq hnone
      rw [h.same hp hq] at hend
      exact hend
  capacity := fun l g => (h'.capacity l g).trans (h.capacity l g)
  target := fun l g => (h'.target l g).trans (h.target l g)
  free_le := fun l g => (h.free_le l g).trans (h'.free_le l g)
  used_le := fun l g => (h'.used_le l g).trans (h.used_le l g)

theorem mono (hX : ∀ id, X id → Y id) : Shed Y s t :=
  { h with deaths := fun hp hnone => ⟨(h.deaths hp hnone).1, (h.deaths hp hnone).2.imp_right (hX _)⟩ }

theorem frame (lvl : Nat) : Frame lvl X s t where
  births := by
    intro id q hq
    obtain ⟨p, hp, hsame⟩ := h.births hq
    exact ⟨p, hp, by rw [hsame]; exact ⟨rfl, rfl, rfl, rfl, rfl, le_rfl⟩⟩
  deaths := h.deaths
  stays := fun hp hq _ _ => h.same hp hq
  capacity := h.capacity
  target := h.target
  free_le := fun l g _ => h.free_le l g
  used_le := fun l g _ => h.used_le l g

theorem page_eq_none (hnone : s.page id = none) : t.page id = none := (h.frame 0).page_eq_none hnone

theorem stay (hp : s.page id = some p) (hnode : p.nodeRef = false) (hX : ¬ X id) :
    ∃ b, t.page id = some { p with block := b } :=
  (h.frame 0).stay hp hnode hX

omit h

theorem of_block (hp : s.page id = some p) (h : t.pool = s.pool) (b : Option Nat)
    (hpage : t.page = (s.setPage id (some { p with block := b })).page) : Shed X s t where
  births := by
    intro i r hr
    rw [hpage] at hr
    rcases page_setPage_some hr with ⟨rfl, ⟨⟩⟩ | ⟨_, hr⟩
    · exact ⟨p, hp, rfl⟩
    · exact ⟨r, hr, rfl⟩
  deaths := by
    intro i r hr hnone
    rw [hpage, page_setPage] at hnone
    split at hnone
    · cases hnone
    · rw [hr] at hnone
      cases hnone
  capacity := fun l g => by rw [h]
  target := fun l g => by rw [h]
  free_le := fun l g => by rw [free, free, h]
  used_le := fun l g => by rw [used, used, h]

theorem of_freed {l g n : Nat} {a : SlotAllocator} (hp : s.page id = some p) (hpage : t.page = (s.setPage id none).page)
    (hpool : t.pool = (s.setPool l g a).pool) (hfreed : PoolFreed (s.pool l g) a n) (hstatus : p.status = .droppable)
    (hcause : p.nodeRef = true ∨ X id) : Shed X s t := by
  choose k hpools using hpool ▸ hfreed.setPool
  refine ⟨fun {i r} hr => ?_, fun {i r} hr hnone => ?_, fun l' g' => (hpools l' g').capacity,
    fun l' g' => (hpools l' g').target, fun l' g' => (hpools l' g').free, fun l' g' => (hpools l' g').used_le⟩
  · rw [hpage] at hr
    exact ⟨r, (page_setPage_none hr).2, rfl⟩
  · rw [hpage, page_setPage] at hnone
    split at hnone
    · rename_i hi
      subst hi
      cases hp.symm.trans hr
      exact ⟨hstatus, hcause⟩
    · rw [hr] at hnone
      cases hnone

end Shed

/-- Every page outside `X` that can be evicted, or that only a queue can keep alive, is queued. -/
def Complete (P : StorageParams T) (X : PageId → Prop) (s : Storage T) : Prop :=
  ∀ id p, s.page id = some p → ¬ X id → (P.isEvictable p = true ∨ p.status = .droppable) → p.nodeRef = true

theorem Complete.mono {X Y : PageId → Prop} (h : P.Complete X s) (hX : ∀ id, X id → Y id) : P.Complete Y s :=
  fun id p hp hY => h id p hp fun hx => hY (hX id hx)

theorem Complete.shed {X Y : PageId → Prop} {t : Storage T} (h : P.Complete X s) (hshed : Shed Y s t) : P.Complete X t := by
  intro id q hq hX hneeds
  obtain ⟨p, hp, hsame⟩ := hshed.births hq
  rw [hsame] at hneeds ⊢
  exact h id p hp hX hneeds

variable (h : P.Inv s)

include h

theorem releasePage_spec (id : PageId) : ∃ t, P.releasePage id s = .ok ⟨⟩ t ∧ P.Inv t ∧ Shed (fun _ => False) s t := by
  cases hp : s.page id with
  | none => exact ⟨s, by rw [releasePage, hp], h, .refl _ s⟩
  | some p =>
    have hrun : P.releasePage id s = P.unlinkFromBlock id p s := by rw [releasePage, hp]
    have hblock : P.Inv (s.setPage id (some { p with block := none })) :=
      h.setPage hp rfl rfl fun hnode => (h.queues.evictable hp hnode : P.isEvictable p = true)
    have hmine : (s.setPage id (some { p with block := none })).page id = some { p with block := none } := by
      rw [page_setPage_eq]
    rw [hrun, unlinkFromBlock, modify_bind_apply]
    by_cases hqueued : p.status = .droppable ∧ p.nodeRef = true
    · obtain ⟨u, hu, hinv, hpool, hpage⟩ := excludeFromEviction_spec hblock hmine hqueued.2
      have hleft : u.page id = some { p with block := none, nodeRef := false } := by
        rw [hpage, page_setPage_eq]
      obtain ⟨t, a, ht, hend, hgone, hfinal, hfreed⟩ := freePage_spec (q := p) hinv hleft rfl rfl
      refine ⟨t, by rw [onlyIf_true (decide_eq_true hqueued), bind_ok hu, ht], hend, ?_⟩
      have hgonePage : t.page = (s.setPage id none).page := by
        rw [hgone, page_setPage_again hpage, setPage_setPage]
      have hfinalPool := hfinal.trans (setPool_congr hpool _ _ a)
      rw [hpool] at hfreed
      exact .of_freed hp hgonePage hfinalPool hfreed hqueued.1 (.inl hqueued.2)
    · exact ⟨s.setPage id (some { p with block := none }), by rw [onlyIf_false (decide_eq_false hqueued)], hblock,
        .of_block hp rfl none rfl⟩

theorem releasePages_spec (ids : List PageId) :
    ∃ t, ids.forM P.releasePage s = .ok ⟨⟩ t ∧ P.Inv t ∧ Shed (fun _ => False) s t := by
  induction ids generalizing s with
  | nil => exact ⟨s, rfl, h, .refl _ s⟩
  | cons id ids ih =>
    obtain ⟨t, ht, hinv, hshed⟩ := releasePage_spec h id
    obtain ⟨u, hu, hend, hrest⟩ := ih hinv
    refine ⟨u, ?_, hend, hshed.trans hrest⟩
    rw [forM_cons_ok ht, hu]

theorem Inv.setTree (tree : T) : P.Inv { s with tree := tree } :=
  ⟨h.slots.congr rfl fun _ => rfl, h.queues.congr rfl (fun _ => rfl) h.queues.evictable, h.fresh⟩

theorem tellTree_spec (id : PageId) (lifeCycle : Nat) (block : Option Nat) :
    ∃ t, P.tellTree id lifeCycle block s = .ok ⟨⟩ t ∧ P.Inv t ∧ Shed (fun _ => False) s t := by
  cases block with
  | none => exact ⟨s, rfl, h, .refl _ s⟩
  | some block =>
    obtain ⟨t, ht, hinv, hshed⟩ := releasePages_spec (h.setTree (P.unlinkPage s.tree block lifeCycle id).1)
      (P.unlinkPage s.tree block lifeCycle id).2
    exact ⟨t, ht, hinv, hshed.births, hshed.deaths, hshed.capacity, hshed.target, hshed.free_le, hshed.used_le⟩

/-- The death of a page that nothing refers to: its slot is free again, and the tree may have given up others. -/
theorem dropPage_spec (hp : s.page id = some p) (hnode : p.nodeRef = false) (hstatus : p.status = .droppable) :
    ∃ t, P.dropPage id p s = .ok ⟨⟩ t ∧ P.Inv t ∧ Shed (· = id) s t ∧ t.page id = none ∧
      t.used p.cacheLevel (P.poolGroup p) + 1 ≤ s.used p.cacheLevel (P.poolGroup p) := by
  obtain ⟨u, hu, hinv, hshed⟩ := tellTree_spec h id p.lifeCycle (if p.committed then p.block else none)
  obtain ⟨b, hb⟩ := hshed.stay hp hnode not_false
  obtain ⟨t, a, ht, hend, hpage, hpool, hfreed⟩ := freePage_spec (q := p) hinv hb hnode rfl
  refine ⟨t, by rw [dropPage, bind_ok hu, ht], hend, ?_, ?_, ?_⟩
  · have hlast : Shed (· = id) u t := .of_freed hb hpage hpool hfreed hstatus (.inr rfl)
    exact (hshed.mono fun _ => False.elim).trans hlast
  · rw [hpage, page_setPage_eq]
  · refine le_trans ?_ (hshed.used_le _ _)
    rw [used, hpool, pool_setPool, if_pos ⟨rfl, rfl⟩]
    exact hfreed.used.le

theorem dropRef_spec (id : PageId) :
    ∃ t, P.dropRef id s = .ok ⟨⟩ t ∧ P.Inv t ∧ Shed (· = id) s t ∧
      (∀ p, s.page id = some p → p.status = .droppable → p.nodeRef = false → t.page id = none ∧
        t.used p.cacheLevel (P.poolGroup p) + 1 ≤ s.used p.cacheLevel (P.poolGroup p)) := by
  cases hp : s.page id with
  | none =>
    refine ⟨s, by rw [dropRef, hp], h, .refl _ s, ?_⟩
    intro p hsome
    cases hsome
  | some p =>
    have hrun : P.dropRef id s =
        if p.status = .droppable ∧ p.nodeRef = false then P.dropPage id p s else .ok ⟨⟩ s := by
      rw [dropRef, hp]
    by_cases hlast : p.status = .droppable ∧ p.nodeRef = false
    · obtain ⟨t, ht, hinv, hshed, hgone, hused⟩ := dropPage_spec h hp hlast.2 hlast.1
      refine ⟨t, by rw [hrun, if_pos hlast, ht], hinv, hshed, ?_⟩
      intro q hq _ _
      cases hq
      exact ⟨hgone, hused⟩
    · refine ⟨s, by rw [hrun, if_neg hlast], h, .refl _ s, ?_⟩
      intro q hq hstatus hnode
      cases hq
      exact absurd ⟨hstatus, hnode⟩ hlast

/-- Giving up the references of a list: what is left of its pages is queued or held. -/
theorem dropRefs_spec (ids : List PageId) :
    ∃ t, ids.forM P.dropRef s = .ok ⟨⟩ t ∧ P.Inv t ∧ Shed (· ∈ ids) s t ∧
      ∀ id ∈ ids, ∀ q, t.page id = some q → ¬ (q.status = .droppable ∧ q.nodeRef = false) := by
  induction ids generalizing s with
  | nil => exact ⟨s, rfl, h, .refl _ s, by simp⟩
  | cons id ids ih =>
    obtain ⟨t, ht, hinv, hshed, hgone⟩ := dropRef_spec h id
    obtain ⟨u, hu, hend, hrest, hleft⟩ := ih hinv
    refine ⟨u, ?_, hend, ?_, ?_⟩
    · rw [forM_cons_ok ht, hu]
    · exact (hshed.mono fun i hi => by simp [hi]).trans (hrest.mono fun i hi => by simp [hi])
    intro i hi r hr hlast
    rcases List.mem_cons.1 hi with rfl | hi
    · obtain ⟨q, hq, hqr⟩ := hrest.births hr
      obtain ⟨p, hp, hpq⟩ := hshed.births hq
      rw [hqr, hpq] at hlast
      rw [(hgone p hp hlast.1 hlast.2).1] at hq
      cases hq
    · exact hleft i hi r hr hlast

omit h

def atLevel (s : Storage T) (l : Nat) (id : PageId) : Bool :=
  match s.page id with
  | some p => p.cacheLevel = l
  | none => false

theorem atLevel_eq (hp : s.page id = some p) (l : Nat) : atLevel s l id = decide (p.cacheLevel = l) := by
  rw [atLevel, hp]

theorem countP_atLevel_congr {t : Storage T} (h : ∀ id ∈ ids, t.page id = s.page id) (l : Nat) :
    ids.countP (atLevel t l) = ids.countP (atLevel s l) := by
  refine List.countP_congr fun id hid => ?_
  rw [atLevel, atLevel, h id hid]

theorem dropRefs_used {t : Storage T} (h : P.Inv s) {g : Nat} (hnodup : ids.Nodup)
    (hlast : ∀ id ∈ ids, ∃ p, s.page id = some p ∧ p.status = .droppable ∧ p.nodeRef = false ∧ P.poolGroup p = g)
    (hrun : ids.forM P.dropRef s = .ok ⟨⟩ t) (l : Nat) : t.used l g + ids.countP (atLevel s l) ≤ s.used l g := by
  induction ids generalizing s with
  | nil =>
    obtain rfl : s = t := by cases hrun; rfl
    simp
  | cons id ids ih =>
    obtain ⟨hid, hids⟩ := List.nodup_cons.1 hnodup
    obtain ⟨u, hu, hinv, hshed, hgone⟩ := dropRef_spec h id
    obtain ⟨p, hp, hstatus, hnode, hgroup⟩ := hlast id (by simp)
    rw [forM_cons_ok hu] at hrun
    have hkept : ∀ i ∈ ids, ∃ q b, s.page i = some q ∧ u.page i = some { q with block := b } ∧
        q.status = .droppable ∧ q.nodeRef = false ∧ P.poolGroup q = g := by
      intro i hi
      obtain ⟨q, hq, hdrop, hno, hsame⟩ := hlast i (by simp [hi])
      obtain ⟨b, hb⟩ := hshed.stay hq hno fun heq => hid (heq ▸ hi)
      exact ⟨q, b, hq, hb, hdrop, hno, hsame⟩
    have hlast' : ∀ i ∈ ids, ∃ q, u.page i = some q ∧ q.status = .droppable ∧ q.nodeRef = false ∧ P.poolGroup q = g := by
      intro i hi
      obtain ⟨q, b, _, hb, hrest⟩ := hkept i hi
      exact ⟨_, hb, hrest⟩
    have hcount : ids.countP (atLevel u l) = ids.countP (atLevel s l) := by
      refine List.countP_congr fun i hi => ?_
      obtain ⟨q, b, hq, hb, _⟩ := hkept i hi
      rw [atLevel_eq hq, atLevel_eq hb]
    have hrest := ih hinv hids hlast' hrun
    have hone : u.used l g + (if atLevel s l id then 1 else 0) ≤ s.used l g := by
      rw [atLevel_eq hp]
      split
      · rename_i hlevel
        rw [← of_decide_eq_true hlevel, ← hgroup]
        exact (hgone p hp hstatus hnode).2
      · exact hshed.used_le l g
    rw [List.countP_cons]
    omega

end StorageParams

end TrtLlm.KvCache
