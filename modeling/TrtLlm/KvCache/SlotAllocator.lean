import Mathlib
import TrtLlm.Lib.Path
import TrtLlm.KvCache.Bitset

/-!
# `SlotAllocator`

The slot allocator of `_storage/_core.py`. Free capacity sits in three places: slot ids never issued, the recycled deque
(whose first `numReadyRecycledSlots` entries are known to be ready), and, during a two-phase shrink, the overflow list
of slots that will be out of range afterwards.

CUDA events complete behind the allocator's back: every operation that queries them takes the answers `complete` of that
moment, unrelated to those of other moments.
-/

namespace TrtLlm.KvCache

open List DynamicBitset

abbrev EventId := Nat

/-- A slot that owns an id. A source `Slot` with `_slot_id = None` is the absence of such a value: `set_slot` and
`move_to_new_slot` move the contents. `readyEvent = none` is `CachedCudaEvent.NULL`. -/
structure Slot where
  slotId : Nat
  readyEvent : Option EventId
deriving DecidableEq, Repr

inductive AllocError where
  | outOfPages
  | logicError
  | runtimeError
  | assertionError
  | indexError
deriving DecidableEq, Repr

structure SlotAllocator where
  capacity : Nat
  numActiveSlots : Nat
  recycledSlots : List Slot
  numReadyRecycledSlots : Nat
  occupiedMask : DynamicBitset
  targetCapacity : Nat
  overflowSlots : List Slot
deriving DecidableEq, Repr

variable (complete : EventId → Bool)

/-- `CachedCudaEvent.query_complete`; the null event is closed, hence complete. -/
def queryComplete : Option EventId → Bool
  | none => true
  | some event => complete event

namespace SlotAllocator

def ofCapacity (capacity : Nat) : SlotAllocator where
  capacity := capacity
  numActiveSlots := 0
  recycledSlots := []
  numReadyRecycledSlots := 0
  occupiedMask := .ofCapacity capacity
  targetCapacity := capacity
  overflowSlots := []

variable (a : SlotAllocator)

def numSlots : Nat := a.capacity

def numFreeSlots : Nat := a.recycledSlots.length + (a.targetCapacity - a.numActiveSlots)

def numOccupiedSlots : Nat := a.occupiedMask.numSetBits

/-- The loop of `_scrub_events_impl` from the first slot not known to be ready: nulls the events found complete and
counts them, stopping at the first that is not. -/
def scrubLoop (complete : EventId → Bool) : List Slot → List Slot × Nat
  | [] => ([], 0)
  | slot :: rest =>
    if queryComplete complete slot.readyEvent then
      let (rest, n) := scrubLoop complete rest
      ({ slot with readyEvent := none } :: rest, n + 1)
    else (slot :: rest, 0)

def scrubEvents : Except AllocError SlotAllocator :=
  if a.recycledSlots.length < a.numReadyRecycledSlots then .error .assertionError
  else
    let (rest, n) := scrubLoop complete (a.recycledSlots.drop a.numReadyRecycledSlots)
    .ok { a with
      recycledSlots := a.recycledSlots.take a.numReadyRecycledSlots ++ rest
      numReadyRecycledSlots := a.numReadyRecycledSlots + n }

/-- `self._occupied_mask.set(slot.slot_id)` and the return of `allocate`. -/
def occupy (slot : Slot) : Except AllocError (Slot × SlotAllocator) :=
  match a.occupiedMask.set slot.slotId with
  | none => .error .indexError
  | some mask => .ok (slot, { a with occupiedMask := mask })

def allocate : Except AllocError (Slot × SlotAllocator) :=
  if a.numFreeSlots = 0 then .error .outOfPages
  else
    match a.scrubEvents complete with
    | .error e => .error e
    | .ok a =>
      -- preference: ready recycled slots > new slots > recycled slots that are not ready
      if 0 < a.numReadyRecycledSlots then
        match a.recycledSlots with
        | [] => .error .assertionError
        | slot :: rest =>
          if slot.readyEvent ≠ none then .error .assertionError
          else occupy { a with
            recycledSlots := rest, numReadyRecycledSlots := a.numReadyRecycledSlots - 1 } slot
      else if a.numActiveSlots < min a.numSlots a.targetCapacity then
        occupy { a with numActiveSlots := a.numActiveSlots + 1 } ⟨a.numActiveSlots, none⟩
      else
        match a.recycledSlots with
        | [] => .error .indexError
        | slot :: rest => occupy { a with recycledSlots := rest } slot

/-- `[self.allocate() for _ in range(n)]`; `complete k` are the event answers at the `k`-th call from the
end. -/
def allocateLoop (complete : Nat → EventId → Bool) :
    Nat → SlotAllocator → Except AllocError (List Slot × SlotAllocator)
  | 0, a => .ok ([], a)
  | n + 1, a =>
    match a.allocate (complete n) with
    | .error e => .error e
    | .ok (slot, a) =>
      match allocateLoop complete n a with
      | .error e => .error e
      | .ok (slots, a) => .ok (slot :: slots, a)

def allocateMultiple (complete : Nat → EventId → Bool) (numSlots : Int) (a : SlotAllocator) :
    Except AllocError (List Slot × SlotAllocator) :=
  if numSlots < 0 then .error .logicError
  else if (a.numFreeSlots : Int) < numSlots then .error .outOfPages
  else allocateLoop complete numSlots.toNat a

def release (slot : Slot) (a : SlotAllocator) : Except AllocError SlotAllocator :=
  if a.capacity ≤ slot.slotId then .error .logicError
  else
    match a.occupiedMask.get slot.slotId with
    | none => .error .indexError
    | some false => .error .logicError
    | some true =>
      let a := if slot.slotId < a.targetCapacity then
          { a with recycledSlots := a.recycledSlots ++ [slot] }
        else { a with overflowSlots := a.overflowSlots ++ [slot] }
      match a.occupiedMask.clear slot.slotId with
      | none => .error .indexError
      | some mask => scrubEvents complete { a with occupiedMask := mask }

def expand (newNumSlots : Nat) (a : SlotAllocator) : Except AllocError SlotAllocator :=
  if a.targetCapacity ≠ a.capacity then .error .assertionError
  else if newNumSlots ≤ a.capacity then .error .assertionError
  else .ok { a with
    occupiedMask := a.occupiedMask.resize newNumSlots
    capacity := newNumSlots
    targetCapacity := newNumSlots }

def prepareForShrink (newNumSlots : Nat) (a : SlotAllocator) : Except AllocError SlotAllocator :=
  if a.targetCapacity ≠ a.capacity then .error .assertionError
  else if a.capacity ≤ newNumSlots then .error .assertionError
  else .ok { a with
    recycledSlots := a.recycledSlots.filter (·.slotId < newNumSlots)
    numReadyRecycledSlots := (a.recycledSlots.take a.numReadyRecycledSlots).countP (·.slotId < newNumSlots)
    overflowSlots := a.overflowSlots ++ a.recycledSlots.filter (¬ ·.slotId < newNumSlots)
    targetCapacity := newNumSlots }

/-- `shrink_in_progress`, without its assertion `_target_capacity <= _capacity`. -/
def shrinkInProgress : Bool := a.targetCapacity < a.capacity

/-- `finish_shrink`; the events of the overflow slots are synchronized, then the slots are forgotten. -/
def finishShrink : Except AllocError SlotAllocator :=
  let expectedOverflow := a.numActiveSlots - a.targetCapacity
  if a.capacity < a.targetCapacity then .error .assertionError
  else if a.shrinkInProgress ∧ a.overflowSlots.length = expectedOverflow then
    if ¬ (a.overflowSlots.map Slot.slotId).Nodup then .error .assertionError
    else scrubEvents complete { a with
      overflowSlots := []
      capacity := a.targetCapacity
      numActiveSlots := min a.numActiveSlots a.targetCapacity }
  else .error .runtimeError

/-- `_check`, the sanity check of the debug build. -/
def check : Bool :=
  a.numActiveSlots ≤ a.capacity ∧ a.targetCapacity ≤ a.capacity ∧
    (a.shrinkInProgress ∨ a.overflowSlots.length = 0) ∧
    a.overflowSlots.all (fun slot => a.targetCapacity ≤ slot.slotId ∧ slot.slotId < a.capacity) ∧
    a.recycledSlots.length + a.overflowSlots.length + a.numOccupiedSlots = a.numActiveSlots

def occupiedIds : Finset Nat := a.occupiedMask.members

def recycledIds : List Nat := a.recycledSlots.map Slot.slotId

def overflowIds : List Nat := a.overflowSlots.map Slot.slotId

/-- The ids below the high-water mark are split between the occupied set and the two lists of free slots, each in one
place; the ready prefix holds no pending event. -/
structure Inv : Prop where
  active_le : a.numActiveSlots ≤ a.capacity
  target_le : a.targetCapacity ≤ a.capacity
  ready_le : a.numReadyRecycledSlots ≤ a.recycledSlots.length
  ready_null : ∀ slot ∈ a.recycledSlots.take a.numReadyRecycledSlots, slot.readyEvent = none
  room : a.capacity ≤ 64 * a.occupiedMask.bits.length
  counted : a.occupiedMask.Counted
  nodup : (a.recycledIds ++ a.overflowIds).Nodup
  apart : ∀ id ∈ a.recycledIds ++ a.overflowIds, id ∉ a.occupiedIds
  cover : ∀ id, id < a.numActiveSlots ↔ id ∈ a.occupiedIds ∨ id ∈ a.recycledIds ++ a.overflowIds
  recycled_lt : ∀ id ∈ a.recycledIds, id < a.targetCapacity
  overflow_ge : ∀ id ∈ a.overflowIds, a.targetCapacity ≤ id

theorem inv_ofCapacity (capacity : Nat) : (ofCapacity capacity).Inv where
  active_le := Nat.zero_le _
  target_le := le_rfl
  ready_le := le_rfl
  ready_null := by simp [ofCapacity]
  room := by
    have h := divUp_mul_ge capacity (y := 64) (by decide)
    simp only [ofCapacity, length_ofCapacity]
    omega
  counted := counted_ofCapacity capacity
  nodup := by simp [ofCapacity, recycledIds, overflowIds]
  apart := by simp [ofCapacity, recycledIds, overflowIds]
  cover := by simp [ofCapacity, recycledIds, overflowIds, occupiedIds, members_ofCapacity]
  recycled_lt := by simp [ofCapacity, recycledIds]
  overflow_ge := by simp [ofCapacity, overflowIds]

theorem scrubLoop_spec (slots : List Slot) :
    (scrubLoop complete slots).1.map Slot.slotId = slots.map Slot.slotId ∧ (scrubLoop complete slots).2 ≤ slots.length ∧
      ∀ slot ∈ (scrubLoop complete slots).1.take (scrubLoop complete slots).2, slot.readyEvent = none := by
  induction slots with
  | nil => simp [scrubLoop]
  | cons slot rest ih =>
    unfold scrubLoop
    split
    · simpa using ih
    · simp

variable {a b : SlotAllocator}

theorem scrubEvents_spec (hready : a.numReadyRecycledSlots ≤ a.recycledSlots.length)
    (hnull : ∀ slot ∈ a.recycledSlots.take a.numReadyRecycledSlots, slot.readyEvent = none) :
    ∃ slots n, a.scrubEvents complete = .ok { a with recycledSlots := slots, numReadyRecycledSlots := n } ∧
      slots.map Slot.slotId = a.recycledIds ∧ n ≤ slots.length ∧
      ∀ slot ∈ slots.take n, slot.readyEvent = none := by
  set loop := scrubLoop complete (a.recycledSlots.drop a.numReadyRecycledSlots) with hloop
  obtain ⟨hids, hlen, hdone⟩ := hloop ▸ scrubLoop_spec complete (a.recycledSlots.drop a.numReadyRecycledSlots)
  have hsame := congrArg length hids
  rw [length_map, length_map] at hsame
  have htake := length_take_of_le hready
  refine ⟨a.recycledSlots.take a.numReadyRecycledSlots ++ loop.1, a.numReadyRecycledSlots + loop.2, ?_, ?_, ?_, ?_⟩
  · rw [scrubEvents, if_neg hready.not_gt]
  · rw [map_append, hids, ← map_append, take_append_drop]
    rfl
  · rw [length_append]
    omega
  · rw [take_append, htake, take_of_length_le (by omega), Nat.add_sub_cancel_left]
    exact forall_mem_append.2 ⟨hnull, hdone⟩

theorem Inv.scrub (h : a.Inv) :
    ∃ slots n, a.scrubEvents complete = .ok { a with recycledSlots := slots, numReadyRecycledSlots := n } ∧
      slots.length = a.recycledSlots.length ∧ Inv { a with recycledSlots := slots, numReadyRecycledSlots := n } := by
  obtain ⟨slots, n, hok, hids, hle, hnull⟩ := scrubEvents_spec complete h.ready_le h.ready_null
  refine ⟨slots, n, hok, by simpa [recycledIds] using congrArg length hids, ?_⟩
  exact { h with
    ready_le := hle
    ready_null := hnull
    nodup := by
      show (slots.map Slot.slotId ++ a.overflowIds).Nodup
      exact hids ▸ h.nodup
    apart := by
      show ∀ id ∈ slots.map Slot.slotId ++ a.overflowIds, id ∉ a.occupiedIds
      exact hids ▸ h.apart
    cover := by
      show ∀ id, id < a.numActiveSlots ↔ id ∈ a.occupiedIds ∨ id ∈ slots.map Slot.slotId ++ a.overflowIds
      exact hids ▸ h.cover
    recycled_lt := by
      show ∀ id ∈ slots.map Slot.slotId, id < a.targetCapacity
      exact hids ▸ h.recycled_lt }

/-- A successful `allocate`: the slot's id was free and below the target and is now occupied; one free slot is gone, and
the capacities stand. -/
structure Allocated (a : SlotAllocator) (slot : Slot) (b : SlotAllocator) : Prop where
  inv : b.Inv
  id_lt : slot.slotId < a.targetCapacity
  fresh : slot.slotId ∉ a.occupiedIds
  occupied : b.occupiedIds = insert slot.slotId a.occupiedIds
  free : b.numFreeSlots + 1 = a.numFreeSlots
  capacity : b.capacity = a.capacity
  target : b.targetCapacity = a.targetCapacity

variable {slot : Slot} {n id newNum : Nat} {slots : List Slot}

theorem Inv.occupy_recycled (h : a.Inv) {rest : List Slot} (hslots : a.recycledSlots = slot :: rest)
    (hn : n ≤ rest.length) (hnull : ∀ slot ∈ rest.take n, slot.readyEvent = none) :
    ∃ b, occupy { a with recycledSlots := rest, numReadyRecycledSlots := n } slot = .ok (slot, b) ∧ Allocated a slot b := by
  have hids : a.recycledIds = slot.slotId :: rest.map Slot.slotId := by rw [recycledIds, hslots]; rfl
  have hmem : slot.slotId ∈ a.recycledIds ++ a.overflowIds := by simp [hids]
  have hactive : slot.slotId < a.numActiveSlots := (h.cover _).2 (.inr hmem)
  have hroom : slot.slotId < 64 * a.occupiedMask.bits.length := by
    have := h.active_le
    have := h.room
    omega
  obtain ⟨mask, hset, hlen, hmembers, hcounted⟩ := set_spec hroom h.counted
  have hnodup := h.nodup
  rw [hids, cons_append, nodup_cons] at hnodup
  refine ⟨{ a with recycledSlots := rest, numReadyRecycledSlots := n, occupiedMask := mask }, ?_, ?_⟩
  · simp only [occupy, hset]
  refine ⟨?_, h.recycled_lt _ (by simp [hids]), h.apart _ hmem, hmembers, ?_, rfl, rfl⟩
  · exact { h with
      ready_le := hn
      ready_null := hnull
      room := by rw [hlen]; exact h.room
      counted := hcounted
      nodup := hnodup.2
      apart := by
        intro id hid
        show id ∉ mask.members
        rw [hmembers, Finset.mem_insert, not_or]
        refine ⟨fun heq => hnodup.1 (heq ▸ hid), h.apart id ?_⟩
        rw [hids]
        exact .tail _ hid
      cover := by
        intro id
        show id < a.numActiveSlots ↔ id ∈ mask.members ∨ id ∈ rest.map Slot.slotId ++ a.overflowIds
        rw [h.cover, hmembers, hids, cons_append, mem_cons, Finset.mem_insert, or_assoc, or_left_comm]
        rfl
      recycled_lt := fun id hid => h.recycled_lt id (by rw [hids]; exact .tail _ hid) }
  · simp only [numFreeSlots, hslots, length_cons]
    omega

theorem Inv.occupy_new (h : a.Inv) (hlt : a.numActiveSlots < min a.numSlots a.targetCapacity) :
    ∃ b, occupy { a with numActiveSlots := a.numActiveSlots + 1 } ⟨a.numActiveSlots, none⟩ =
        .ok (⟨a.numActiveSlots, none⟩, b) ∧ Allocated a ⟨a.numActiveSlots, none⟩ b := by
  obtain ⟨hcap, htarget⟩ := lt_min_iff.1 hlt
  have hroom := lt_of_lt_of_le hcap h.room
  obtain ⟨mask, hset, hlen, hmembers, hcounted⟩ := set_spec hroom h.counted
  have hfresh : ¬ (a.numActiveSlots ∈ a.occupiedIds ∨ a.numActiveSlots ∈ a.recycledIds ++ a.overflowIds) := by
    rw [← h.cover]
    exact lt_irrefl _
  rw [not_or] at hfresh
  refine ⟨{ a with numActiveSlots := a.numActiveSlots + 1, occupiedMask := mask }, ?_, ?_⟩
  · simp only [occupy, hset]
  refine ⟨?_, htarget, hfresh.1, hmembers, ?_, rfl, rfl⟩
  · exact { h with
      active_le := hcap
      room := by rw [hlen]; exact h.room
      counted := hcounted
      apart := by
        intro id hid
        show id ∉ mask.members
        rw [hmembers, Finset.mem_insert, not_or]
        exact ⟨fun heq => hfresh.2 (heq ▸ hid), h.apart id hid⟩
      cover := by
        intro id
        show id < a.numActiveSlots + 1 ↔ id ∈ mask.members ∨ id ∈ a.recycledIds ++ a.overflowIds
        rw [Nat.lt_succ_iff_lt_or_eq, h.cover, hmembers, Finset.mem_insert, or_comm, or_assoc]
        rfl }
  · simp only [numFreeSlots]
    omega

theorem Inv.allocate_spec (h : a.Inv) (hfree : 0 < a.numFreeSlots) :
    ∃ slot b, a.allocate complete = .ok (slot, b) ∧ Allocated a slot b := by
  obtain ⟨slots, n, hok, hlen, hinv⟩ := h.scrub complete
  -- Scrubbing keeps ids, so what holds after it of the free slots is what held before.
  have hback : ∀ {slot b}, Allocated { a with recycledSlots := slots, numReadyRecycledSlots := n } slot b →
      Allocated a slot b := fun hb =>
    ⟨hb.inv, hb.id_lt, hb.fresh, hb.occupied, by rw [hb.free, numFreeSlots, hlen]; rfl, hb.capacity, hb.target⟩
  rw [allocate, if_neg (pos_iff_ne_zero.1 hfree), hok]
  dsimp only
  have hready := hinv.ready_le
  have hnull := hinv.ready_null
  split
  · cases slots with
    | nil =>
      simp only [length_nil] at hready
      omega
    | cons slot rest =>
      obtain ⟨k, rfl⟩ : ∃ k, n = k + 1 := ⟨n - 1, by omega⟩
      have hslot : slot.readyEvent = none := hnull slot (by simp)
      obtain ⟨b, hb, hspec⟩ := hinv.occupy_recycled rfl (by simpa using hready)
        fun s hs => hnull s (.tail _ hs)
      refine ⟨slot, b, ?_, hback hspec⟩
      simp only [hslot]
      exact hb
  · split
    · rename_i hlt
      obtain ⟨b, hb, hspec⟩ := hinv.occupy_new hlt
      exact ⟨_, b, hb, hback hspec⟩
    · rename_i hge
      have htarget := h.target_le
      cases slots with
      | nil =>
        simp only [numFreeSlots, numSlots, length_nil] at hfree hge hlen
        omega
      | cons slot rest =>
        obtain rfl : n = 0 := by omega
        obtain ⟨b, hb, hspec⟩ := hinv.occupy_recycled rfl (Nat.zero_le _) (by simp)
        exact ⟨slot, b, hb, hback hspec⟩

theorem allocate_eq_outOfPages (hfree : a.numFreeSlots = 0) : a.allocate complete = .error .outOfPages := by
  rw [allocate, if_pos hfree]

structure AllocatedAll (a : SlotAllocator) (slots : List Slot) (b : SlotAllocator) : Prop where
  inv : b.Inv
  id_lt : ∀ slot ∈ slots, slot.slotId < a.targetCapacity
  nodup : (slots.map Slot.slotId).Nodup
  fresh : ∀ slot ∈ slots, slot.slotId ∉ a.occupiedIds
  occupied : b.occupiedIds = a.occupiedIds ∪ (slots.map Slot.slotId).toFinset
  free : b.numFreeSlots + slots.length = a.numFreeSlots
  capacity : b.capacity = a.capacity
  target : b.targetCapacity = a.targetCapacity

theorem AllocatedAll.cons {c : SlotAllocator} (h : Allocated a slot b)
    (hrest : AllocatedAll b slots c) : AllocatedAll a (slot :: slots) c where
  inv := hrest.inv
  id_lt := forall_mem_cons.2 ⟨h.id_lt, h.target ▸ hrest.id_lt⟩
  nodup := by
    refine nodup_cons.2 ⟨fun hmem => ?_, hrest.nodup⟩
    obtain ⟨s, hs, heq⟩ := mem_map.1 hmem
    apply hrest.fresh s hs
    rw [heq, h.occupied]
    exact Finset.mem_insert_self _ _
  fresh := by
    refine forall_mem_cons.2 ⟨h.fresh, fun s hs hocc => hrest.fresh s hs ?_⟩
    rw [h.occupied]
    exact Finset.mem_insert_of_mem hocc
  occupied := by
    rw [hrest.occupied, h.occupied, map_cons, toFinset_cons, Finset.insert_union, Finset.union_insert]
  free := by
    have hone := h.free
    have hmany := hrest.free
    rw [length_cons]
    omega
  capacity := hrest.capacity.trans h.capacity
  target := hrest.target.trans h.target

variable (complete : Nat → EventId → Bool)

theorem Inv.allocateLoop_spec (n : Nat) (h : a.Inv) (hfree : n ≤ a.numFreeSlots) :
    ∃ slots b, allocateLoop complete n a = .ok (slots, b) ∧ slots.length = n ∧ AllocatedAll a slots b := by
  induction n generalizing a with
  | zero => exact ⟨[], a, rfl, rfl, h, by simp, by simp, by simp, by simp, rfl, rfl, rfl⟩
  | succ n ih =>
    obtain ⟨slot, b, hb, hspec⟩ := h.allocate_spec (complete n) (by omega)
    have hcount := hspec.free
    obtain ⟨slots, c, hc, hlen, hrest⟩ := ih hspec.inv (by omega)
    refine ⟨slot :: slots, c, ?_, by rw [length_cons, hlen], .cons hspec hrest⟩
    simp only [allocateLoop, hb, hc]

theorem Inv.allocateMultiple_spec (numSlots : Int) (h : a.Inv)
    (hok : a.allocateMultiple complete numSlots = .ok (slots, b)) : AllocatedAll a slots b := by
  unfold allocateMultiple at hok
  split at hok
  · cases hok
  split at hok
  · cases hok
  obtain ⟨slots', b', hloop, _, hspec⟩ := h.allocateLoop_spec complete numSlots.toNat (by omega)
  rw [hloop] at hok
  cases hok
  exact hspec

variable (h : a.Inv)

include h

theorem Inv.id_lt_of_occupied (hid : id ∈ a.occupiedIds) : id < a.numActiveSlots := (h.cover id).2 (.inl hid)

theorem Inv.free_id (hid : id ∈ a.occupiedIds)
    (hperm : (b.recycledIds ++ b.overflowIds).Perm (id :: (a.recycledIds ++ a.overflowIds)))
    (hocc : b.occupiedIds = a.occupiedIds.erase id) (hactive : b.numActiveSlots = a.numActiveSlots) :
    (b.recycledIds ++ b.overflowIds).Nodup ∧ (∀ i ∈ b.recycledIds ++ b.overflowIds, i ∉ b.occupiedIds) ∧
      ∀ i, i < b.numActiveSlots ↔ i ∈ b.occupiedIds ∨ i ∈ b.recycledIds ++ b.overflowIds := by
  have hnew : id ∉ a.recycledIds ++ a.overflowIds := fun hmem => h.apart id hmem hid
  refine ⟨hperm.nodup_iff.2 (nodup_cons.2 ⟨hnew, h.nodup⟩), fun i hi => ?_, fun i => ?_⟩
  · rw [hperm.mem_iff, mem_cons] at hi
    rw [hocc, Finset.mem_erase, not_and]
    intro hne
    exact h.apart i (hi.resolve_left hne)
  · rw [hactive, h.cover, hperm.mem_iff, hocc]
    by_cases heq : i = id
    · simp [heq, hid]
    · simp [heq]

theorem Inv.release_spec (complete : EventId → Bool) (hslot : slot.slotId ∈ a.occupiedIds) :
    ∃ b, a.release complete slot = .ok b ∧ b.Inv ∧ b.occupiedIds = a.occupiedIds.erase slot.slotId ∧
      b.capacity = a.capacity ∧ b.targetCapacity = a.targetCapacity ∧ a.numFreeSlots ≤ b.numFreeSlots := by
  have hactive := h.id_lt_of_occupied hslot
  have hcap : slot.slotId < a.capacity := lt_of_lt_of_le hactive h.active_le
  have hroom := lt_of_lt_of_le hcap h.room
  have hget : a.occupiedMask.get slot.slotId = some true := by
    rw [get_eq hroom, mem_members.1 hslot]
  obtain ⟨mask, hclear, hlen, hmembers, hcounted⟩ := clear_spec hroom h.counted
  by_cases htarget : slot.slotId < a.targetCapacity
  · set c : SlotAllocator := { a with recycledSlots := a.recycledSlots ++ [slot], occupiedMask := mask } with hc
    have hids : c.recycledIds = a.recycledIds ++ [slot.slotId] := by simp [hc, recycledIds]
    obtain ⟨hnodup, hapart, hcover⟩ := h.free_id (b := c) hslot (by rw [hids, append_assoc]; exact perm_middle) hmembers rfl
    have hinv : c.Inv := { h with
      ready_le := by simp only [hc, length_append]; exact h.ready_le.trans (Nat.le_add_right _ _)
      ready_null := by
        simp only [hc, take_append_of_le_length h.ready_le]
        exact h.ready_null
      room := by rw [hlen]; exact h.room
      counted := hcounted
      nodup := hnodup
      apart := hapart
      cover := hcover
      recycled_lt := by
        rw [hids]
        exact forall_mem_append.2 ⟨h.recycled_lt, forall_mem_singleton.2 htarget⟩ }
    obtain ⟨slots, n, hok, hsame, hfinal⟩ := hinv.scrub complete
    refine ⟨_, ?_, hfinal, hmembers, rfl, rfl, ?_⟩
    · simp only [release, not_le.2 hcap, hget, if_pos htarget, hclear]
      exact hok
    · rw [numFreeSlots, numFreeSlots, hsame, length_append]
      exact Nat.add_le_add_right (Nat.le_add_right _ _) _
  · set c : SlotAllocator := { a with overflowSlots := a.overflowSlots ++ [slot], occupiedMask := mask } with hc
    have hids : c.overflowIds = a.overflowIds ++ [slot.slotId] := by simp [hc, overflowIds]
    obtain ⟨hnodup, hapart, hcover⟩ := h.free_id (b := c) hslot
      (by rw [hids, ← append_assoc]; exact perm_append_singleton _ _) hmembers rfl
    have hinv : c.Inv := { h with
      room := by rw [hlen]; exact h.room
      counted := hcounted
      nodup := hnodup
      apart := hapart
      cover := hcover
      overflow_ge := by
        rw [hids]
        exact forall_mem_append.2 ⟨h.overflow_ge, forall_mem_singleton.2 (not_lt.1 htarget)⟩ }
    obtain ⟨slots, n, hok, hsame, hfinal⟩ := hinv.scrub complete
    refine ⟨_, ?_, hfinal, hmembers, rfl, rfl, ?_⟩
    · simp only [release, not_le.2 hcap, hget, if_neg htarget, hclear]
      exact hok
    · rw [numFreeSlots, numFreeSlots, hsame]

theorem Inv.overflow_eq_nil (hstable : a.targetCapacity = a.capacity) : a.overflowSlots = [] := by
  apply eq_nil_iff_forall_not_mem.2
  intro slot hslot
  have hid : slot.slotId ∈ a.overflowIds := mem_map_of_mem hslot
  have hlt := (h.cover _).2 (.inr (mem_append_right _ hid))
  have hge := h.overflow_ge _ hid
  have hle := h.active_le
  omega

theorem Inv.expand_spec (hstable : a.targetCapacity = a.capacity) (hgrow : a.capacity < newNum) :
    ∃ b, a.expand newNum = .ok b ∧ b.Inv ∧ b.occupiedIds = a.occupiedIds ∧ b.targetCapacity = b.capacity := by
  have hmembers : (a.occupiedMask.resize newNum).members = a.occupiedMask.members := by
    rw [members_resize, Finset.filter_true_of_mem]
    intro id hid
    exact (h.id_lt_of_occupied hid).trans_le (h.active_le.trans hgrow.le)
  let b : SlotAllocator := { a with
    occupiedMask := a.occupiedMask.resize newNum
    capacity := newNum
    targetCapacity := newNum }
  refine ⟨b, by rw [expand, if_neg (not_not.2 hstable), if_neg hgrow.not_ge], ?_, hmembers, rfl⟩
  exact { h with
    active_le := h.active_le.trans hgrow.le
    target_le := le_rfl
    room := by
      have hwords := divUp_mul_ge newNum (y := 64) (by decide)
      show newNum ≤ 64 * (a.occupiedMask.resize newNum).bits.length
      rw [length_resize]
      omega
    counted := counted_resize newNum h.counted
    apart := by
      intro id hid
      show id ∉ (a.occupiedMask.resize newNum).members
      rw [hmembers]
      exact h.apart id hid
    cover := by
      intro id
      show id < a.numActiveSlots ↔ id ∈ (a.occupiedMask.resize newNum).members ∨ _
      rw [hmembers]
      exact h.cover id
    recycled_lt := by
      intro id hid
      have hlt := h.recycled_lt id hid
      rw [hstable] at hlt
      exact hlt.trans hgrow
    overflow_ge := by simp [b, overflowIds, h.overflow_eq_nil hstable] }

theorem Inv.prepareForShrink_spec (hstable : a.targetCapacity = a.capacity)
    (hshrink : newNum < a.capacity) :
    ∃ b, a.prepareForShrink newNum = .ok b ∧ b.Inv ∧ b.occupiedIds = a.occupiedIds ∧
      b.capacity = a.capacity ∧ b.targetCapacity = newNum := by
  set kept := a.recycledSlots.filter (·.slotId < newNum) with hkept
  set cut := a.recycledSlots.filter (¬ ·.slotId < newNum) with hcut
  set n := (a.recycledSlots.take a.numReadyRecycledSlots).countP (·.slotId < newNum) with hn
  let b : SlotAllocator := { a with
    recycledSlots := kept
    numReadyRecycledSlots := n
    overflowSlots := a.overflowSlots ++ cut
    targetCapacity := newNum }
  refine ⟨b, ?_, ?_, rfl, rfl, rfl⟩
  · rw [prepareForShrink, if_neg (not_not.2 hstable), if_neg hshrink.not_ge]
  -- No slot overflows while the target is the capacity.
  have hnil := h.overflow_eq_nil hstable
  have hover : a.overflowSlots ++ cut = cut := by rw [hnil, nil_append]
  have hperm : (kept.map Slot.slotId ++ (a.overflowSlots ++ cut).map Slot.slotId).Perm (a.recycledIds ++ a.overflowIds) := by
    rw [overflowIds, hnil, ← map_append, map_nil, append_nil]
    refine .map Slot.slotId ?_
    rw [hcut]
    simp only [decide_not]
    exact filter_append_perm _ _
  -- The kept part of the ready prefix is the ready prefix of the kept part.
  have hready : kept.take n = (a.recycledSlots.take a.numReadyRecycledSlots).filter (·.slotId < newNum) := by
    have hsplit : kept = (a.recycledSlots.take a.numReadyRecycledSlots).filter (·.slotId < newNum) ++
        (a.recycledSlots.drop a.numReadyRecycledSlots).filter (·.slotId < newNum) := by
      rw [← filter_append, take_append_drop]
    rw [hsplit, hn, countP_eq_length_filter, take_left' rfl]
  exact { h with
    target_le := hshrink.le
    ready_le := by
      rw [← countP_eq_length_filter]
      exact List.Sublist.countP_le (take_sublist _ _)
    ready_null := by
      intro slot hslot
      rw [hready] at hslot
      exact h.ready_null slot (mem_filter.1 hslot).1
    nodup := hperm.nodup_iff.2 h.nodup
    apart := fun id hid => h.apart id (hperm.mem_iff.1 hid)
    cover := fun id => (h.cover id).trans (or_congr_right hperm.mem_iff.symm)
    recycled_lt := by
      intro id hid
      obtain ⟨slot, hslot, rfl⟩ := mem_map.1 hid
      simpa using (mem_filter.1 hslot).2
    overflow_ge := by
      intro id hid
      obtain ⟨slot, hslot, rfl⟩ := mem_map.1 hid
      change slot ∈ a.overflowSlots ++ cut at hslot
      rw [hover] at hslot
      simpa using (mem_filter.1 hslot).2 }

theorem Inv.overflowIds_toFinset :
    a.overflowIds.toFinset = (Finset.Ico a.targetCapacity a.numActiveSlots).filter (· ∉ a.occupiedIds) := by
  ext id
  rw [mem_toFinset, Finset.mem_filter, Finset.mem_Ico]
  constructor
  · intro hid
    have hfree := mem_append_right a.recycledIds hid
    exact ⟨⟨h.overflow_ge id hid, (h.cover id).2 (.inr hfree)⟩, h.apart id hfree⟩
  · rintro ⟨⟨hge, hlt⟩, hocc⟩
    rcases mem_append.1 (((h.cover id).1 hlt).resolve_left hocc) with hid | hid
    · exact absurd (h.recycled_lt id hid) hge.not_gt
    · exact hid

theorem Inv.overflow_complete_iff :
    a.overflowSlots.length = a.numActiveSlots - a.targetCapacity ↔ ∀ id ∈ a.occupiedIds, id < a.targetCapacity := by
  have hlen : a.overflowSlots.length = a.overflowIds.toFinset.card := by
    rw [toFinset_card_of_nodup h.nodup.of_append_right, overflowIds, length_map]
  rw [hlen, h.overflowIds_toFinset, ← Nat.card_Ico, Finset.card_filter_eq_iff]
  constructor
  · intro hall id hid
    by_contra hge
    exact hall id (Finset.mem_Ico.2 ⟨not_lt.1 hge, h.id_lt_of_occupied hid⟩) hid
  · intro hall id hid hocc
    exact absurd (hall id hocc) (not_lt.2 (Finset.mem_Ico.1 hid).1)

/-- A shrink can be finished exactly when one is in progress and every occupied id is below the target. -/
theorem Inv.finishShrink_iff (complete : EventId → Bool) :
    (∃ b, a.finishShrink complete = .ok b) ↔ a.shrinkInProgress = true ∧ ∀ id ∈ a.occupiedIds, id < a.targetCapacity := by
  have hnodup : (a.overflowSlots.map Slot.slotId).Nodup := h.nodup.of_append_right
  rw [finishShrink, if_neg h.target_le.not_gt, ← h.overflow_complete_iff]
  split
  · rename_i hcond
    obtain ⟨slots, n, hok, _⟩ := scrubEvents_spec complete (a := { a with
      overflowSlots := []
      capacity := a.targetCapacity
      numActiveSlots := min a.numActiveSlots a.targetCapacity }) h.ready_le h.ready_null
    exact ⟨fun _ => hcond, fun _ => ⟨_, hok⟩⟩
  · rename_i hcond
    exact iff_of_false (fun ⟨_, hok⟩ => nomatch hok) hcond

theorem Inv.finishShrink_spec (complete : EventId → Bool) (hok : a.finishShrink complete = .ok b) :
    b.Inv ∧ b.occupiedIds = a.occupiedIds ∧ b.capacity = a.targetCapacity ∧ b.targetCapacity = a.targetCapacity := by
  obtain ⟨hprogress, hbelow⟩ := (h.finishShrink_iff complete).1 ⟨b, hok⟩
  let c : SlotAllocator := { a with
    overflowSlots := []
    capacity := a.targetCapacity
    numActiveSlots := min a.numActiveSlots a.targetCapacity }
  have hinv : c.Inv := { h with
    active_le := min_le_right _ _
    target_le := le_rfl
    room := h.target_le.trans h.room
    nodup := by
      show (a.recycledIds ++ []).Nodup
      rw [append_nil]
      exact h.nodup.of_append_left
    apart := by
      intro id hid
      exact h.apart id (mem_append_left _ (by simpa [c, recycledIds, overflowIds] using hid))
    cover := by
      intro id
      show id < min a.numActiveSlots a.targetCapacity ↔ id ∈ a.occupiedIds ∨ id ∈ a.recycledIds ++ []
      rw [lt_min_iff, h.cover, append_nil, mem_append]
      constructor
      · rintro ⟨hocc | hrec | hover, hlt⟩
        · exact .inl hocc
        · exact .inr hrec
        · exact absurd hlt (not_lt.2 (h.overflow_ge id hover))
      · rintro (hocc | hrec)
        · exact ⟨.inl hocc, hbelow id hocc⟩
        · exact ⟨.inr (.inl hrec), h.recycled_lt id hrec⟩
    overflow_ge := by simp [c, overflowIds] }
  obtain ⟨slots, n, hscrub, _, hfinal⟩ := hinv.scrub complete
  have hcomplete := h.overflow_complete_iff.2 hbelow
  have hnodup : (a.overflowSlots.map Slot.slotId).Nodup := h.nodup.of_append_right
  rw [finishShrink, if_neg h.target_le.not_gt, if_pos ⟨hprogress, hcomplete⟩, if_neg (not_not.2 hnodup)] at hok
  have heq := hok.symm.trans hscrub
  cases heq
  exact ⟨hfinal, rfl, rfl, rfl⟩

theorem Inv.count : a.recycledSlots.length + a.overflowSlots.length + a.occupiedIds.card = a.numActiveSlots := by
  have hunion : (a.recycledIds ++ a.overflowIds).toFinset ∪ a.occupiedIds = Finset.range a.numActiveSlots := by
    ext id
    rw [Finset.mem_union, mem_toFinset, Finset.mem_range, h.cover, or_comm]
  have hdisjoint := Finset.disjoint_left.2 fun id hid => h.apart id (mem_toFinset.1 hid)
  have hcard := congrArg Finset.card hunion
  rw [Finset.card_union_of_disjoint hdisjoint, toFinset_card_of_nodup h.nodup, Finset.card_range,
    length_append, recycledIds, overflowIds, length_map, length_map] at hcard
  exact hcard

end SlotAllocator

end TrtLlm.KvCache
