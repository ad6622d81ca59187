import TrtLlm.KvCache.Storage.Runs

/-!
# What the storage manager promises

The contracts of `prepare_free_slots`, when it returns and when it raises, and of the eviction queues, over all runs.
-/

namespace TrtLlm.KvCache.StorageParams

variable {T : Type} {P : StorageParams T}

/-! ### Two cache levels and a block -/

/-- Two cache levels, one pool group, and a tree with one block that has one place. -/
def twoLevels : StorageParams (Option PageId) where
  numCacheLevels := 2
  numPoolGroups := 1
  numLifeCycles := 1
  lifeCycleGrouping := fun _ => 0
  complete := fun _ _ => true
  unlinkPage := fun tree _ _ id => (if tree = some id then none else tree, [])
  holdsPage := fun tree _ id => tree = some id

/-- A cache takes a slot of the GPU level for a page, and is suspended. -/
def suspendedPage (id : PageId) (slotId : Nat) : List (Operation (Option PageId)) :=
  [.newSlotsForPoolGroup 0 0 1, .newPage 0 0 ⟨slotId, none⟩, .hold id, .unlock id 0]

/-! ### When `prepare_free_slots` returns -/

/-- Three suspended caches with a page each: page 0 in the host level, pages 2 and 1 queued in slots 0 and 1 of the GPU
level. A shrink of that level to one slot finds no room for page 2 and is given up; then page 0 ends. -/
def interruptedShrink : List (Operation (Option PageId)) :=
  suspendedPage 0 0 ++ suspendedPage 1 1 ++ suspendedPage 2 0 ++
    [.lock 1, .unlock 1 0, .prepareForShrink 0 0 1, .prepareFreeSlots 0 fun _ => 1, .dropHolder 0]

/-! ### When `prepare_free_slots` raises -/

def Untouched (P : StorageParams T) (s t : Storage T) : Prop :=
  ∀ id p, s.page id = some p → ∃ q, t.page id = some q ∧ q.cacheLevel = p.cacheLevel ∧ q.slot = p.slot ∧
    ((p.priority, id) ∈ (s.policy p.cacheLevel (P.poolGroup p)).entries →
      (q.priority, id) ∈ (t.policy q.cacheLevel (P.poolGroup q)).entries)

theorem mem_entries_iff {s : Storage T} (h : P.Inv s) {id : PageId} {p : Page} (hp : s.page id = some p) :
    (p.priority, id) ∈ (s.policy p.cacheLevel (P.poolGroup p)).entries ↔ p.nodeRef = true := by
  rw [h.queues.queued, hp]
  exact ⟨nodeRef_of_ticket, ticket_eq_some⟩

/-- When the call raises `OutOfPagesError`, nothing is lost exactly if the level itself was short of pages. -/
theorem prepareFreeSlots_untouched_iff (hlevels : 0 < P.numCacheLevels) {capacity : Nat → Nat → Nat} {tree : T}
    {calls : List (Operation T × Option StorageError)} {s t : Storage T}
    (hpath : Path P.machine.Step (.ofCapacities capacity tree) calls s) {level : Nat} {requirements : Nat → Int}
    (hraise : P.prepareFreeSlots level requirements s = .error .outOfPages t) :
    P.Untouched s t ↔ ∃ g < P.numPoolGroups, (s.free level g : Int) + s.evictable level g < requirements g := by
  have h := inv_of_path hlevels hpath
  have hlevel : level < P.numCacheLevels := by
    by_contra hge
    rw [prepareFreeSlots, bind_error (check_error (decide_eq_false hge))] at hraise
    cases hraise
  have hfailed := (prepareFreeSlots_spec h hlevel requirements).error hraise
  have hdeeper : ∀ l g, level < l → goalsAt level requirements l g ≤ 0 := by
    intro l g hl
    rw [goalsAt, if_neg (ne_of_gt hl)]
  have hshort : P.Short (goalsAt level requirements) level s ↔
      ∃ g < P.numPoolGroups, (s.free level g : Int) + s.evictable level g < requirements g := by
    simp [Short, goalsAt]
  rw [← hshort]
  rcases hfailed.cause rfl (fun _ => rfl) hdeeper with ⟨hyes, hpage⟩ | ⟨hno, _, hlost⟩
  · refine iff_of_true (fun id p hp => ?_) hyes
    have hq : t.page id = some p := hpage ▸ hp
    exact ⟨p, hq, rfl, rfl, fun hmem => (mem_entries_iff hfailed.inv hq).2 ((mem_entries_iff h hp).1 hmem)⟩
  · refine iff_of_false (fun huntouched => ?_) hno
    obtain ⟨id, p, hp, hnode, rfl, hgone⟩ := hlost
    obtain ⟨q, hq, hsame, _, hqueued⟩ := huntouched id p hp
    have hnode' := (mem_entries_iff hfailed.inv hq).1 (hqueued ((mem_entries_iff h hp).2 hnode))
    rcases hgone q hq with hbelow | ⟨hout, _⟩
    · omega
    · rw [hout] at hnode'
      cases hnode'

/-- A call for three slots where two pages are queued and no slot is free. -/
theorem prepareFreeSlots_untouched_two_pages :
    ∃ t, twoLevels.prepareFreeSlots 0 (fun _ => 3) (twoLevels.machine.after (.ofCapacities (fun _ _ => 2) none)
        (suspendedPage 0 0 ++ suspendedPage 1 1)) = .error .outOfPages t ∧
      twoLevels.Untouched (twoLevels.machine.after (.ofCapacities (fun _ _ => 2) none)
        (suspendedPage 0 0 ++ suspendedPage 1 1)) t := by
  have hraise : Ends (twoLevels.prepareFreeSlots 0 (fun _ => 3) (twoLevels.machine.after
      (.ofCapacities (fun _ _ => 2) none) (suspendedPage 0 0 ++ suspendedPage 1 1))) (fun _ _ => False)
      (fun e _ => e = .outOfPages) := by decide +kernel
  have hadmits : twoLevels.machine.Admits (.ofCapacities (fun _ _ => 2) none)
      (suspendedPage 0 0 ++ suspendedPage 1 1) := by decide +kernel
  obtain ⟨e, t, ht, rfl⟩ := hraise.exists_error
  exact ⟨t, ht, (prepareFreeSlots_untouched_iff (by decide) hadmits.path ht).2 ⟨0, by decide, by decide +kernel⟩⟩

/-- With both levels full of held pages, the page that was to make room is in no queue afterwards. -/
theorem prepareFreeSlots_loses_page :
    twoLevels.machine.Admits (.ofCapacities (fun _ _ => 1) none) (suspendedPage 0 0 ++ suspendedPage 1 0) ∧
      Ends (twoLevels.prepareFreeSlots 0 (fun _ => 1)
        (twoLevels.machine.after (.ofCapacities (fun _ _ => 1) none) (suspendedPage 0 0 ++ suspendedPage 1 0)))
        (fun _ _ => False)
        (fun e t => e = .outOfPages ∧ t.evictable 0 0 = 0 ∧ ∃ p ∈ t.page 1, twoLevels.isEvictable p = true) := by
  decide +kernel

/-! ### The eviction queues -/

/-- In every state that a clean run reaches, a page is queued, once and at its own level, if it is held above the last
level or droppable and committed; locked pages, held ones of the last level and uncommitted ones that nobody holds are
not queued. -/
theorem queued_iff_of_clean_run (hlevels : 0 < P.numCacheLevels) {capacity : Nat → Nat → Nat} {tree : T}
    {calls : List (Operation T × Option StorageError)} {s : Storage T}
    (hpath : Path P.cleanMachine.Step (.ofCapacities capacity tree) calls s) {id : PageId} {p : Page}
    (hp : s.page id = some p) :
    ((p.status = .held ∧ p.cacheLevel + 1 < P.numCacheLevels) ∨ (p.status = .droppable ∧ p.committed = true) →
      ∀ l g π, (π, id) ∈ (s.policy l g).entries ↔ l = p.cacheLevel ∧ g = P.poolGroup p ∧ π = p.priority) ∧
    (p.status = .locked ∨ (p.status = .held ∧ p.cacheLevel + 1 = P.numCacheLevels) ∨
        (p.status = .droppable ∧ p.committed = false) → ∀ l g π, (π, id) ∉ (s.policy l g).entries) ∧
    ∀ l g, (s.policy l g).entries.Nodup := by
  obtain ⟨h, hcomplete⟩ := complete_of_path hlevels hpath
  refine ⟨fun hneeds l g π => ?_, fun hother l g π hmem => ?_, h.queues.nodup⟩
  · have hevictable : P.isEvictable p = true := by
      rw [isEvictable, decide_eq_true_eq]
      exact hneeds.symm
    rw [h.queues.queued, hp, Option.bind_some, ticket_eq_some (hcomplete id p hp not_false (.inl hevictable))]
    simp only [Option.some_inj, Prod.mk.injEq]
    constructor <;> rintro ⟨rfl, rfl, rfl⟩ <;> exact ⟨rfl, rfl, rfl⟩
  · rw [h.queues.queued, hp] at hmem
    have hevictable := h.queues.evictable hp (nodeRef_of_ticket hmem)
    rw [isEvictable] at hevictable
    rcases hother with hstatus | ⟨hstatus, hlast⟩ | ⟨hstatus, huncommitted⟩
    · simp [hstatus] at hevictable
    · simp [hstatus] at hevictable
      omega
    · simp [hstatus, huncommitted] at hevictable

def suspendedCommit : List (Operation (Option PageId)) :=
  [.newSlotsForPoolGroup 0 0 1, .newPage 0 0 ⟨0, none⟩, .commit 0 0 0 (some 1) none .lock, .hold 1, .unlock 1 0]

theorem queued_iff_suspended_commit :
    (0, 1) ∈ ((twoLevels.cleanMachine.after (.ofCapacities (fun _ _ => 2) none) suspendedCommit).policy 0 0).entries := by
  have hadmits : twoLevels.cleanMachine.Admits (.ofCapacities (fun _ _ => 2) none) suspendedCommit := by decide +kernel
  have hp : (twoLevels.cleanMachine.after (.ofCapacities (fun _ _ => 2) none) suspendedCommit).page 1 =
      some ⟨0, 0, ⟨0, some 0⟩, 0, 1, 0, true, some 0, true⟩ := by decide +kernel
  exact ((queued_iff_of_clean_run (by decide) hadmits.path hp).1 (.inl (by decide)) 0 0 0).2 (by decide)

/-- Another cache commits a longer page to the block: the first page is held in the GPU level, and in no queue. -/
theorem superseded_held_page_not_queued :
    twoLevels.machine.Admits (.ofCapacities (fun _ _ => 2) none) (suspendedCommit ++
        [.newSlotsForPoolGroup 0 0 1, .newPage 0 0 ⟨1, none⟩, .commit 2 0 0 (some 3) (some 1) .lock]) ∧
      (∀ call ∈ (twoLevels.machine.calls (.ofCapacities (fun _ _ => 2) none) (suspendedCommit ++
        [.newSlotsForPoolGroup 0 0 1, .newPage 0 0 ⟨1, none⟩, .commit 2 0 0 (some 3) (some 1) .lock])).map Prod.snd,
        call = none) ∧
      (∃ p ∈ (twoLevels.machine.after (.ofCapacities (fun _ _ => 2) none) (suspendedCommit ++
        [.newSlotsForPoolGroup 0 0 1, .newPage 0 0 ⟨1, none⟩, .commit 2 0 0 (some 3) (some 1) .lock])).page 1,
        p.status = .held ∧ p.cacheLevel = 0) ∧
      ((twoLevels.machine.after (.ofCapacities (fun _ _ => 2) none) (suspendedCommit ++
        [.newSlotsForPoolGroup 0 0 1, .newPage 0 0 ⟨1, none⟩, .commit 2 0 0 (some 3) (some 1) .lock])).policy 0 0).entries =
        [] := by
  decide +kernel

/-! ### Slots -/

/-- In every state that a run reaches, calls that raise included, no two pages own one slot, and the pages of a pool and
its free slots fit into its capacity. -/
theorem slots_owned_of_run (hlevels : 0 < P.numCacheLevels) {capacity : Nat → Nat → Nat} {tree : T}
    {calls : List (Operation T × Option StorageError)} {s : Storage T}
    (hpath : Path P.machine.Step (.ofCapacities capacity tree) calls s) :
    (∀ i j p q, s.page i = some p → s.page j = some q → P.place p = P.place q → i = j) ∧
    ∀ l g (ids : Finset PageId), (∀ id ∈ ids, (s.page id).any fun p => p.cacheLevel = l ∧ P.poolGroup p = g) →
      ids.card + s.free l g ≤ (s.pool l g).capacity := by
  have h := (inv_of_path hlevels hpath).slots
  refine ⟨fun i j p q => h.unique, fun l g ids hids => ?_⟩
  have hpage : ∀ id ∈ ids, ∃ p, s.page id = some p ∧ p.cacheLevel = l ∧ P.poolGroup p = g := by
    intro id hid
    obtain ⟨p, hp, hplace⟩ := (Option.any_eq_true _ _).1 (hids id hid)
    exact ⟨p, hp, of_decide_eq_true hplace⟩
  have hcard : ids.card ≤ (s.pool l g).occupiedIds.card := by
    apply Finset.card_le_card_of_injOn fun id => (s.page id).elim 0 (·.slot.slotId)
    · intro id hid
      obtain ⟨p, hp, rfl, rfl⟩ := hpage id hid
      simpa [hp] using h.owns hp
    · intro i hi j hj heq
      obtain ⟨p, hp, rfl, rfl⟩ := hpage i hi
      obtain ⟨q, hq, hlevel, hgroup⟩ := hpage j hj
      simp only [hp, hq, Option.elim_some] at heq
      exact h.unique hp hq (by rw [place, place, hlevel, hgroup, heq])
  have hcount := (h.pools l g).count
  have := (h.pools l g).active_le
  have := (h.pools l g).target_le
  rw [Storage.free, SlotAllocator.numFreeSlots]
  omega

theorem slots_owned_two_pages :
    let s := twoLevels.machine.after (.ofCapacities (fun _ _ => 2) none) (suspendedPage 0 0 ++ suspendedPage 1 1)
    s.free 0 0 = 0 ∧ ({0, 1} : Finset PageId).card + s.free 0 0 ≤ (s.pool 0 0).capacity := by
  have hadmits : twoLevels.machine.Admits (.ofCapacities (fun _ _ => 2) none) (suspendedPage 0 0 ++ suspendedPage 1 1) := by
    decide +kernel
  exact ⟨by decide +kernel, (slots_owned_of_run (by decide) hadmits.path).2 0 0 _ (by decide +kernel)⟩

end TrtLlm.KvCache.StorageParams
