import TrtLlm.KvCache.Storage.Resize

/-!
# Runs of the storage manager

The operations that the caches and the manager make on the storage, in any order, each returning or raising; an
exception leaves the state it was raised in. The invariant holds in every state such a run reaches. A clean run, in
which nothing is raised and no held page above the last level is superseded, also keeps every page that can be evicted
in its queue.
-/

namespace TrtLlm.KvCache

open Option PrioritizedEvictionPolicy

/-- An operation on the storage, with what the tree answers where it is asked. -/
inductive Operation (T : Type) where
  | hold (id : PageId)
  | dropHolder (id : PageId)
  | lock (id : PageId)
  | unlock (id : PageId) (finishEvent : EventId)
  | newPage (lifeCycle : Nat) (priority : Priority) (slot : Slot)
  | commit (id : PageId) (block : Nat) (readyEvent : EventId) (tree : T) (superseded : Option PageId)
      (mode : StorageParams.CommitMode)
  | copyToBlock (lifeCycle level : Nat) (priority : Priority) (slot : Slot) (block : Nat) (tree : T)
      (superseded : Option PageId)
  | alterTree (tree : T) (adopted : List (PageId × Nat × Option PageId)) (released : List PageId)
  | plannedDrop (ids : List PageId)
  | prepareFreeSlots (level : Nat) (requirements : Nat → Int)
  | newSlots (level : Nat) (numSlots : Nat → Nat)
  | newSlotsForPoolGroup (level pg numSlots : Nat)
  | releaseSlot (lifeCycle level : Nat) (slot : Slot)
  | batchedLockToGpu (ids : List PageId)
  | prefetch (dst : Nat) (ids : List PageId)
  | forceEvict (level : Nat) (minNumPages : Nat → Nat)
  | prepareForShrink (level pg newNumSlots : Nat)
  | defragment (level pg : Nat) (ids : List PageId)
  | finishShrink (level pg : Nat)
  | expandPoolGroup (level pg newNumSlots : Nat)

def Storage.ofCapacities {T : Type} (capacity : Nat → Nat → Nat) (tree : T) : Storage T where
  pool := fun l g => .ofCapacity (capacity l g)
  policy := fun _ _ => .empty
  page := fun _ => none
  nextPage := 0
  tree := tree
  time := 0

namespace StorageParams

variable {T : Type} (P : StorageParams T)

def run : Operation T → StorageM T PUnit
  | .hold id => P.hold id
  | .dropHolder id => P.dropHolder id
  | .lock id => P.lock id
  | .unlock id finishEvent => P.unlock id finishEvent
  | .newPage lifeCycle priority slot => newPage lifeCycle priority slot
  | .commit id block readyEvent tree superseded mode => P.commitPage id block readyEvent tree superseded mode
  | .copyToBlock lifeCycle level priority slot block tree superseded =>
    P.copyToBlock lifeCycle level priority slot block tree superseded
  | .alterTree tree adopted released => P.alterTree tree adopted released
  | .plannedDrop ids => P.plannedDrop ids
  | .prepareFreeSlots level requirements => P.prepareFreeSlots level requirements
  | .newSlots level numSlots => do let _ ← P.newSlots level numSlots
  | .newSlotsForPoolGroup level pg numSlots => do let _ ← P.newSlotsForPoolGroup level pg numSlots
  | .releaseSlot lifeCycle level slot => P.releaseSlot lifeCycle level slot
  | .batchedLockToGpu ids => P.batchedLockToGpu ids
  | .prefetch dst ids => P.prefetch dst ids
  | .forceEvict level minNumPages => P.forceEvict level minNumPages
  | .prepareForShrink level pg newNumSlots => P.prepareForShrink level pg newNumSlots
  | .defragment level pg ids => P.defragment level pg ids
  | .finishShrink level pg => P.finishShrink level pg
  | .expandPoolGroup level pg newNumSlots => P.expandPoolGroup level pg newNumSlots

def isLoose (s : Storage T) (level pg slotId : Nat) : Bool :=
  (s.pool level pg).occupiedMask.contains slotId &&
    (List.range s.nextPage).all fun i => (s.page i).all fun p => P.place p ≠ (level, pg, slotId)

/-- What a caller answers for: the pages it names are alive, it has the holder, lock or slot it gives up, and an
uncommitted page it commits is its own. -/
def admissible (s : Storage T) : Operation T → Bool
  | .hold id | .lock id => (s.page id).isSome
  | .dropHolder id => (s.page id).any (0 < ·.holders)
  | .unlock id _ => (s.page id).any (0 < ·.locks)
  | .newPage lifeCycle _ slot => P.isLoose s 0 (P.lifeCycleGrouping lifeCycle) slot.slotId
  | .commit id _ _ _ superseded _ =>
    (s.page id).any (fun p => p.holders + p.locks = 1 ∧ p.committed = false) &&
      superseded.all fun j => j ≠ id && (s.page j).isSome
  | .copyToBlock lifeCycle level _ slot _ _ superseded =>
    level < P.numCacheLevels && P.isLoose s level (P.lifeCycleGrouping lifeCycle) slot.slotId &&
      superseded.all fun j => (s.page j).isSome
  | .releaseSlot lifeCycle level slot => P.isLoose s level (P.lifeCycleGrouping lifeCycle) slot.slotId
  | .batchedLockToGpu ids => ids.Nodup && ids.all fun id => (s.page id).isSome
  | .prefetch dst ids => dst < P.numCacheLevels && ids.Nodup &&
      ids.all fun id => (s.page id).any fun p => P.poolGroup p < P.numPoolGroups ∧ dst ≤ p.cacheLevel
  | .defragment level pg ids => level < P.numCacheLevels &&
      ids.all fun id => (s.page id).any fun p => p.cacheLevel = level ∧ P.poolGroup p = pg
  | _ => true

def displacesHeld (s : Storage T) : Operation T → Bool
  | .commit _ _ _ _ superseded _ => P.displaces s superseded
  | .copyToBlock _ _ _ _ _ _ superseded => P.displaces s superseded
  | .alterTree _ adopted _ => adopted.any fun adoption => P.displaces s adoption.2.2
  | _ => false

def exec (s : Storage T) (op : Operation T) : Storage T × Option StorageError :=
  match P.run op s with
  | .ok _ t => (t, none)
  | .error e t => (t, some e)

def machine : Machine (Storage T) (Operation T) (Option StorageError) := ⟨fun s op => P.admissible s op, P.exec⟩

/-- The operations that return and do not supersede a page that is held above the last level. -/
def cleanMachine : Machine (Storage T) (Operation T) (Option StorageError) :=
  ⟨fun s op => P.admissible s op = true ∧ P.displacesHeld s op = false ∧ (P.exec s op).2 = none, P.exec⟩

instance (s : Storage T) (op : Operation T) : Decidable (P.machine.admissible s op) :=
  inferInstanceAs (Decidable (P.admissible s op = true))

instance (s : Storage T) (op : Operation T) : Decidable (P.cleanMachine.admissible s op) := inferInstanceAs (Decidable (_ ∧ _))

variable {P} {s : Storage T}

theorem isLoose_spec (h : P.Inv s) {level pg slotId : Nat} (hloose : P.isLoose s level pg slotId = true) :
    Loose P s level pg slotId := by
  rw [isLoose, Bool.and_eq_true, List.all_eq_true] at hloose
  obtain ⟨hocc, hpages⟩ := hloose
  refine ⟨DynamicBitset.mem_members.2 hocc, fun {i q} hq => ?_⟩
  have hlt : i < s.nextPage := by
    by_contra hge
    rw [h.fresh i (not_lt.1 hge)] at hq
    cases hq
  have hplace := hpages i (List.mem_range.2 hlt)
  rw [hq] at hplace
  exact of_decide_eq_true hplace

theorem inv_ofCapacities (capacity : Nat → Nat → Nat) (tree : T) : P.Inv (Storage.ofCapacities capacity tree) where
  slots := ⟨fun l g => SlotAllocator.inv_ofCapacity (capacity l g), nofun, nofun, nofun⟩
  queues := ⟨fun _ _ _ _ => by simp [Storage.ofCapacities, entries,
    entriesOf, empty], fun _ _ => List.nodup_nil, fun hp =>
      (nomatch hp)⟩
  fresh := fun _ _ => rfl

def Returned (P : StorageParams T) (s : Storage T) (op : Operation T) (t : Storage T) : Prop :=
  P.Inv t ∧ (P.displacesHeld s op = false → ∀ X, P.Complete X s → P.Complete X t)

variable {op : Operation T} {capacity : Nat → Nat → Nat} {calls : List (Operation T × Option StorageError)}
  (hlevels : 0 < P.numCacheLevels)

include hlevels

theorem run_spec (h : P.Inv s) (hop : P.admissible s op = true) :
    Ends (P.run op s) (fun _ t => P.Returned s op t) (fun _ t => P.Inv t) := by
  have hok : ∀ {m : StorageM T PUnit}, (∃ t, m s = .ok ⟨⟩ t ∧ Keeps P s t) →
      Ends (m s) (fun _ => P.Returned s op) (fun _ => P.Inv) := by
    rintro m ⟨t, ht, hkeeps⟩
    exact .of_ok ht ⟨hkeeps.inv, fun _ => hkeeps.queued⟩
  have hends : ∀ {α : Type} {m : StorageM T α}, Ends (m s) (fun _ => Keeps P s) (fun _ => Kept P s) →
      Ends (m s) (fun _ => P.Returned s op) (fun _ => P.Inv) := by
    intro α m hm
    exact hm.mono (fun _ t hkeeps => ⟨hkeeps.inv, fun _ => hkeeps.queued⟩) fun _ t hkept => hkept.inv
  have hresize : ∀ {m : StorageM T PUnit}, Ends (m s) (fun _ t => P.Inv t ∧ t.page = s.page) (fun _ t => t = s) →
      Ends (m s) (fun _ => P.Returned s op) (fun _ => P.Inv) := by
    intro m hm
    apply hm.mono
    · rintro _ t ⟨hinv, hpage⟩
      refine ⟨hinv, fun _ X hcomplete id p hp => hcomplete id p (hpage ▸ hp)⟩
    · rintro _ t rfl
      exact h
  cases op with
  | hold id =>
    obtain ⟨p, hp⟩ := isSome_iff_exists.1 hop
    exact hok (hold_keeps h hp)
  | dropHolder id =>
    obtain ⟨p, hp, hholders⟩ := (any_eq_true _ _).1 hop
    exact hok (dropHolder_keeps h hp (of_decide_eq_true hholders))
  | lock id =>
    obtain ⟨p, hp⟩ := isSome_iff_exists.1 hop
    exact hends ((lock_keeps h hp).mono (fun _ _ hkeeps => hkeeps) fun _ _ hkeeps => hkeeps.toKept)
  | unlock id finishEvent =>
    obtain ⟨p, hp, hlocks⟩ := (any_eq_true _ _).1 hop
    exact hok (unlock_keeps h hp (of_decide_eq_true hlocks) finishEvent)
  | newPage lifeCycle priority slot => 
    refine hok ⟨_, rfl, .of_pool (h.addPage hlevels (isLoose_spec h hop) rfl) rfl, fun X hcomplete => ?_⟩
    refine hcomplete.rewrite rfl fun _ hneeds => ?_
    exact nomatch locks_eq_zero_of_needs hneeds
  | commit id block readyEvent tree old mode =>
    rw [admissible, Bool.and_eq_true] at hop
    obtain ⟨p, hp, hone⟩ := (any_eq_true _ _).1 hop.1
    have hone := (of_decide_eq_true hone).1
    have halive : ∀ j, old = some j → j ≠ id ∧ s.page j ≠ none := by
      rintro j rfl
      simpa [isSome_iff_ne_none] using hop.2
    apply (commitPage_spec h hp hone block readyEvent tree halive mode).mono
    · exact fun _ t hdone => ⟨hdone.1.inv, hdone.2⟩
    · exact fun _ t hkept => hkept.inv
  | copyToBlock lifeCycle level priority slot block tree old =>
    rw [admissible, Bool.and_eq_true, Bool.and_eq_true, decide_eq_true_eq] at hop
    obtain ⟨⟨hlevel, hloose⟩, hsuperseded⟩ := hop
    have halive : ∀ j, old = some j → s.page j ≠ none := by
      rintro j rfl
      simpa [isSome_iff_ne_none] using hsuperseded
    obtain ⟨t, ht, hkept, hqueued⟩ := copyToBlock_spec h hlevel priority (isLoose_spec h hloose) block tree halive
    exact .of_ok ht ⟨hkept.inv, hqueued⟩
  | alterTree tree adopted released =>
    obtain ⟨t, ht, hkept, hqueued⟩ := alterTree_spec h tree adopted released
    refine .of_ok ht ⟨hkept.inv, fun hheld => hqueued fun adoption hadoption => ?_⟩
    rw [displacesHeld, List.any_eq_false] at hheld
    exact Bool.eq_false_iff.2 (hheld adoption hadoption)
  | plannedDrop ids => exact hok (plannedDrop_keeps h ids)
  | prepareFreeSlots level requirements => exact hends (prepareFreeSlots_safe level requirements s h)
  | newSlots level numSlots => exact hends (((newSlots_safe level numSlots).bind fun _ => .pure _) s h)
  | newSlotsForPoolGroup level pg numSlots =>
    exact hends (((newSlotsForPoolGroup_safe level pg numSlots).bind fun _ => .pure _) s h)
  | releaseSlot lifeCycle level slot => exact hok (releaseSlot_keeps h (isLoose_spec h hop))
  | batchedLockToGpu ids =>
    rw [admissible, Bool.and_eq_true, decide_eq_true_eq, List.all_eq_true] at hop
    exact hends (batchedLockToGpu_spec h hlevels hop.1 fun id hid => isSome_iff_exists.1 (hop.2 id hid))
  | prefetch dst ids =>
    rw [admissible, Bool.and_eq_true, Bool.and_eq_true, decide_eq_true_eq, decide_eq_true_eq, List.all_eq_true] at hop
    obtain ⟨⟨hdst, hnodup⟩, hids⟩ := hop
    refine hends (prefetch_spec h hdst hnodup fun id hid => ?_)
    obtain ⟨p, hp, hpage⟩ := (any_eq_true _ _).1 (hids id hid)
    exact ⟨p, hp, (of_decide_eq_true hpage).1⟩
  | forceEvict level minNumPages => exact hends (forceEvict_safe level minNumPages s h)
  | prepareForShrink level pg newNum => exact hresize (prepareForShrink_spec h level pg newNum)
  | defragment level pg ids =>
    rw [admissible, Bool.and_eq_true, decide_eq_true_eq, List.all_eq_true] at hop
    obtain ⟨hlevel, hids⟩ := hop
    have hmove := defragment_spec h hlevel fun id hid => by
      obtain ⟨p, hp, hpage⟩ := (any_eq_true _ _).1 (hids id hid)
      exact ⟨p, hp, of_decide_eq_true hpage⟩
    apply hmove.mono
    · exact fun _ t hdone => ⟨hdone.1, fun _ X => hdone.2.complete⟩
    · rintro _ t ⟨_, rfl⟩
      exact h
  | finishShrink level pg => exact hresize (finishShrink_spec h level pg)
  | expandPoolGroup level pg newNum => exact hresize (expandPoolGroup_spec h level pg newNum)

theorem exec_spec (h : P.Inv s) (hop : P.admissible s op = true) :
    P.Inv (P.exec s op).1 ∧ ((P.exec s op).2 = none → P.Returned s op (P.exec s op).1) := by
  have hrun := run_spec hlevels h hop
  rw [exec]
  cases hres : P.run op s with
  | ok _ u => exact ⟨(hrun.ok hres).1, fun _ => hrun.ok hres⟩
  | error e u => exact ⟨hrun.error hres, nofun⟩

theorem inv_of_path {tree : T} (hpath : Path P.machine.Step (.ofCapacities capacity tree) calls s) : P.Inv s := by
  refine hpath.invariant (fun s call t h hstep => ?_) (inv_ofCapacities capacity tree)
  obtain rfl := congrArg Prod.fst hstep.2
  exact (exec_spec hlevels h hstep.1).1

theorem complete_of_path {tree : T} (hpath : Path P.cleanMachine.Step (.ofCapacities capacity tree) calls s) :
    P.Inv s ∧ P.Complete (fun _ => False) s := by
  have hstep : ∀ s call t, P.Inv s ∧ P.Complete (fun _ => False) s → P.cleanMachine.Step s call t →
      P.Inv t ∧ P.Complete (fun _ => False) t := by
    rintro s call t ⟨hinv, hcomplete⟩ ⟨⟨hop, hheld, hreturns⟩, hexec⟩
    obtain rfl := congrArg Prod.fst hexec
    obtain ⟨hinv', hreturned⟩ := exec_spec hlevels hinv hop
    exact ⟨hinv', (hreturned hreturns).2 hheld _ hcomplete⟩
  exact hpath.invariant hstep ⟨inv_ofCapacities capacity tree, nofun⟩

end StorageParams

end TrtLlm.KvCache
