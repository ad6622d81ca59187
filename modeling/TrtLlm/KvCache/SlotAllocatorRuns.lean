import TrtLlm.KvCache.SlotAllocator

/-!
# Runs of the slot allocator

Every finite sequence of calls that respects the asserted call conditions, under every pattern of event
completion. A call that raises leaves the allocator as it was.
-/

namespace TrtLlm.KvCache.SlotAllocator

open List

inductive Op where
  | allocate (complete : EventId → Bool)
  | allocateMultiple (complete : Nat → EventId → Bool) (numSlots : Int)
  | release (complete : EventId → Bool) (slot : Slot)
  | expand (newNumSlots : Nat)
  | prepareForShrink (newNumSlots : Nat)
  | finishShrink (complete : EventId → Bool)

/-- The allocator together with the ids its users hold: handed out and not yet released. -/
structure Run where
  alloc : SlotAllocator
  outstanding : Finset Nat

def Run.ofCapacity (capacity : Nat) : Run := ⟨.ofCapacity capacity, ∅⟩

/-- The call conditions: only outstanding slots are released, and a resize starts only when no shrink is in
progress and in its own direction. -/
def Op.Admissible (r : Run) : Op → Prop
  | .release _ slot => slot.slotId ∈ r.outstanding
  | .expand newNumSlots => r.alloc.shrinkInProgress = false ∧ r.alloc.capacity < newNumSlots
  | .prepareForShrink newNumSlots => r.alloc.shrinkInProgress = false ∧ newNumSlots < r.alloc.capacity
  | _ => True

def Run.exec (r : Run) : Op → Run × List Nat
  | .allocate complete =>
    match r.alloc.allocate complete with
    | .ok (slot, a) => (⟨a, insert slot.slotId r.outstanding⟩, [slot.slotId])
    | .error _ => (r, [])
  | .allocateMultiple complete numSlots =>
    match r.alloc.allocateMultiple complete numSlots with
    | .ok (slots, a) =>
      (⟨a, r.outstanding ∪ (slots.map Slot.slotId).toFinset⟩, slots.map Slot.slotId)
    | .error _ => (r, [])
  | .release complete slot =>
    match r.alloc.release complete slot with
    | .ok a => (⟨a, r.outstanding.erase slot.slotId⟩, [])
    | .error _ => (r, [])
  | .expand newNumSlots =>
    match r.alloc.expand newNumSlots with
    | .ok a => ({ r with alloc := a }, [])
    | .error _ => (r, [])
  | .prepareForShrink newNumSlots =>
    match r.alloc.prepareForShrink newNumSlots with
    | .ok a => ({ r with alloc := a }, [])
    | .error _ => (r, [])
  | .finishShrink complete =>
    match r.alloc.finishShrink complete with
    | .ok a => ({ r with alloc := a }, [])
    | .error _ => (r, [])

instance (r : Run) (op : Op) : Decidable (op.Admissible r) := by
  cases op <;> unfold Op.Admissible <;> infer_instance

/-- The allocator with its callers; a call returns the ids it hands out. -/
def machine : Machine Run Op (List Nat) := ⟨fun r op => op.Admissible r, Run.exec⟩

instance (r : Run) (op : Op) : Decidable (machine.admissible r op) := inferInstanceAs (Decidable (op.Admissible r))

/-- What a run maintains: the representation invariant, and the mask records the outstanding ids. -/
structure Run.Good (r : Run) : Prop where
  inv : r.alloc.Inv
  outstanding : r.outstanding = r.alloc.occupiedIds

theorem stable_of_not_shrinkInProgress {a : SlotAllocator} (h : a.Inv) (hidle : a.shrinkInProgress = false) :
    a.targetCapacity = a.capacity := by
  rw [shrinkInProgress, decide_eq_false_iff_not, not_lt] at hidle
  exact le_antisymm h.target_le hidle

variable {r : Run} {calls : List (Op × List Nat)}

/-- One call keeps the invariant, hands out ids below the target capacity, and only `expand` can raise the
target capacity above a bound. -/
theorem Run.Good.step {r' : Run} {call : Op × List Nat} (h : r.Good) (hstep : machine.Step r call r') :
    r'.Good ∧ (∀ id ∈ call.2, id < r.alloc.targetCapacity) ∧
      ((∀ n, call.1 ≠ .expand n) → r'.alloc.targetCapacity ≤ r.alloc.targetCapacity) := by
  obtain ⟨op, handedOut⟩ := call
  obtain ⟨hadm, hexec⟩ := hstep
  change r.exec op = (r', handedOut) at hexec
  cases op with
  | allocate complete =>
    rcases eq_zero_or_pos r.alloc.numFreeSlots with hzero | hpos
    · rw [exec, allocate_eq_outOfPages complete hzero] at hexec
      cases hexec
      exact ⟨h, by simp, fun _ => le_rfl⟩
    · obtain ⟨slot, a, hok, hspec⟩ := h.inv.allocate_spec complete hpos
      rw [exec, hok] at hexec
      cases hexec
      refine ⟨⟨hspec.inv, ?_⟩, ?_, fun _ => hspec.target.le⟩
      · rw [hspec.occupied, h.outstanding]
      · intro id hid
        rw [mem_singleton.1 hid]
        exact hspec.id_lt
  | allocateMultiple complete numSlots =>
    cases hok : r.alloc.allocateMultiple complete numSlots with
    | error e =>
      rw [exec, hok] at hexec
      cases hexec
      exact ⟨h, by simp, fun _ => le_rfl⟩
    | ok result =>
      obtain ⟨hinv, hlt, _, _, hocc, _, _, htarget⟩ := h.inv.allocateMultiple_spec complete numSlots hok
      rw [exec, hok] at hexec
      cases hexec
      refine ⟨⟨hinv, ?_⟩, ?_, fun _ => htarget.le⟩
      · rw [hocc, h.outstanding]
      · intro id hid
        obtain ⟨slot, hslot, rfl⟩ := mem_map.1 hid
        exact hlt slot hslot
  | release complete slot =>
    have hslot : slot.slotId ∈ r.alloc.occupiedIds := h.outstanding ▸ hadm
    obtain ⟨a, hok, hinv, hocc, _, htarget, _⟩ := h.inv.release_spec complete hslot
    rw [exec, hok] at hexec
    cases hexec
    refine ⟨⟨hinv, ?_⟩, by simp, fun _ => htarget.le⟩
    rw [hocc, h.outstanding]
  | expand newNumSlots =>
    obtain ⟨a, hok, hinv, hocc, _⟩ := h.inv.expand_spec (stable_of_not_shrinkInProgress h.inv hadm.1) hadm.2
    rw [exec, hok] at hexec
    cases hexec
    exact ⟨⟨hinv, h.outstanding.trans hocc.symm⟩, by simp, fun hno => absurd rfl (hno newNumSlots)⟩
  | prepareForShrink newNumSlots =>
    have hstable := stable_of_not_shrinkInProgress h.inv hadm.1
    obtain ⟨a, hok, hinv, hocc, _, htarget⟩ := h.inv.prepareForShrink_spec hstable hadm.2
    rw [exec, hok] at hexec
    cases hexec
    refine ⟨⟨hinv, h.outstanding.trans hocc.symm⟩, by simp, fun _ => ?_⟩
    rw [htarget, hstable]
    exact hadm.2.le
  | finishShrink complete =>
    cases hok : r.alloc.finishShrink complete with
    | error e =>
      rw [exec, hok] at hexec
      cases hexec
      exact ⟨h, by simp, fun _ => le_rfl⟩
    | ok a =>
      obtain ⟨hinv, hocc, _, htarget⟩ := h.inv.finishShrink_spec complete hok
      rw [exec, hok] at hexec
      cases hexec
      exact ⟨⟨hinv, h.outstanding.trans hocc.symm⟩, by simp, fun _ => htarget.le⟩

theorem Run.Good.of_path {capacity : Nat} (hrun : Path machine.Step (Run.ofCapacity capacity) calls r) : r.Good :=
  hrun.invariant (fun _ _ _ h hstep => (h.step hstep).1)
    ⟨inv_ofCapacity capacity, (DynamicBitset.members_ofCapacity capacity).symm⟩

/-- After `prepareForShrink n`, a run without `expand` hands out ids below `n` only. -/
theorem Run.Good.handedOut_lt {r₁ r₂ : Run} {n : Nat} (h : r.Good)
    (hprepare : machine.Step r (.prepareForShrink n, []) r₁) (hrun : Path machine.Step r₁ calls r₂)
    (hno : ∀ call ∈ calls, ∀ m, call.1 ≠ .expand m) : ∀ call ∈ calls, ∀ id ∈ call.2, id < n := by
  have htarget : r₁.alloc.targetCapacity = n := by
    obtain ⟨hadm, hexec⟩ := hprepare
    change r.exec (.prepareForShrink n) = (r₁, []) at hexec
    obtain ⟨a, hok, _, _, _, htarget⟩ := h.inv.prepareForShrink_spec (stable_of_not_shrinkInProgress h.inv hadm.1) hadm.2
    simp only [exec, hok, Prod.mk.injEq, and_true] at hexec
    rw [← hexec]
    exact htarget
  have hstep : ∀ s call t, (s.Good ∧ s.alloc.targetCapacity ≤ n) → (∀ m, call.1 ≠ .expand m) →
      machine.Step s call t → (t.Good ∧ t.alloc.targetCapacity ≤ n) ∧ ∀ id ∈ call.2, id < n := by
    intro s call t hs hcall hst
    obtain ⟨hgood, hids, hmono⟩ := hs.1.step hst
    exact ⟨⟨hgood, (hmono hcall).trans hs.2⟩, fun id hid => (hids id hid).trans_le hs.2⟩
  exact (Path.invariant_of_forall hstep hrun ⟨(h.step hprepare).1, htarget.le⟩ hno).2

/-- Every run keeps the slot ids partitioned, counts its free slots exactly, and shrinks when it can. -/
theorem runs_partition_slots (capacity : Nat) (calls : List (Op × List Nat)) (r : Run)
    (hrun : Path machine.Step (Run.ofCapacity capacity) calls r) :
    -- occupied, recycled and overflow ids are disjoint, without repetition, and make up the active ids
    (Disjoint r.alloc.occupiedIds r.alloc.recycledIds.toFinset ∧
      Disjoint r.alloc.occupiedIds r.alloc.overflowIds.toFinset ∧
      Disjoint r.alloc.recycledIds.toFinset r.alloc.overflowIds.toFinset ∧
      r.alloc.recycledIds.Nodup ∧ r.alloc.overflowIds.Nodup ∧
      r.alloc.occupiedIds ∪ r.alloc.recycledIds.toFinset ∪ r.alloc.overflowIds.toFinset = Finset.range r.alloc.numActiveSlots ∧
      r.alloc.occupiedIds = r.outstanding) ∧
    (∀ id ∈ r.alloc.recycledIds, id < r.alloc.targetCapacity) ∧
    (∀ id ∈ r.alloc.overflowIds, r.alloc.targetCapacity ≤ id ∧ id < r.alloc.capacity) ∧
    -- exactly `numFreeSlots` further calls of `allocate` succeed
    (∀ complete, ∃ slots a, allocateLoop complete r.alloc.numFreeSlots r.alloc = .ok (slots, a) ∧
      slots.length = r.alloc.numFreeSlots ∧ ∀ answers, a.allocate answers = .error .outOfPages) ∧
    -- no id at or above a scheduled capacity is handed out before the next `expand`
    (∀ n r₁ later r₂, machine.Step r (.prepareForShrink n, []) r₁ → Path machine.Step r₁ later r₂ →
      (∀ call ∈ later, ∀ m, call.1 ≠ .expand m) → ∀ call ∈ later, ∀ id ∈ call.2, id < n) ∧
    (∀ complete, (∃ a, r.alloc.finishShrink complete = .ok a) ↔
      r.alloc.shrinkInProgress = true ∧ ∀ id ∈ r.alloc.occupiedIds, id < r.alloc.targetCapacity) := by
  have hgood := Run.Good.of_path hrun
  have h := hgood.inv
  have hnodup := nodup_append.1 h.nodup
  refine ⟨⟨?_, ?_, ?_, hnodup.1, hnodup.2.1, ?_, hgood.outstanding.symm⟩, h.recycled_lt, fun id hid => ?_,
    fun complete => ?_, fun n r₁ later r₂ hprepare hlater hno =>
      hgood.handedOut_lt hprepare hlater hno, h.finishShrink_iff⟩
  · rw [Finset.disjoint_right]
    intro id hid
    exact h.apart id (mem_append_left _ (mem_toFinset.1 hid))
  · rw [Finset.disjoint_right]
    intro id hid
    exact h.apart id (mem_append_right _ (mem_toFinset.1 hid))
  · rw [Finset.disjoint_left]
    intro id hleft hright
    exact hnodup.2.2 id (mem_toFinset.1 hleft) id (mem_toFinset.1 hright) rfl
  · ext id
    rw [Finset.mem_union, Finset.mem_union, mem_toFinset, mem_toFinset, Finset.mem_range, h.cover, mem_append, or_assoc]
  · exact ⟨h.overflow_ge id hid, ((h.cover id).2 (.inr (mem_append_right _ hid))).trans_le h.active_le⟩
  · obtain ⟨slots, b, hok, hlen, hspec⟩ := h.allocateLoop_spec complete _ le_rfl
    have hfree := hspec.free
    exact ⟨slots, b, hok, hlen, fun answers => allocate_eq_outOfPages answers (by omega)⟩

theorem runs_partition_slots_shrinking :
    let r := machine.after (.ofCapacity 2) [.allocate fun _ => true, .prepareForShrink 1]
    r.outstanding = {0} ∧ r.alloc.numFreeSlots = 0 ∧ r.alloc.occupiedIds ∪ r.alloc.recycledIds.toFinset ∪
      r.alloc.overflowIds.toFinset = .range r.alloc.numActiveSlots :=
  ⟨by decide, by decide, (runs_partition_slots 2 _ _ (Machine.Admits.path (by decide))).1.2.2.2.2.2.1⟩

/-- Once the shrink is finished and the allocator expanded again, the ids given up are handed out anew. -/
theorem expand_reissues_shrunk_id :
    ∃ r calls r', machine.Step (Run.ofCapacity 2) (.prepareForShrink 1, []) r ∧ Path machine.Step r calls r' ∧
      ∃ call ∈ calls, ∃ id ∈ call.2, 1 ≤ id := by
  let ops : List Op := [.finishShrink fun _ => true, .expand 2, .allocate fun _ => true, .allocate fun _ => true]
  have hadmits : machine.Admits (machine.after (.ofCapacity 2) [.prepareForShrink 1]) ops := by decide
  refine ⟨_, _, _, ⟨by decide, rfl⟩, hadmits.path, ?_⟩
  exact ⟨(.allocate fun _ => true, [1]), .tail _ (.tail _ (.tail _ (.head _))), 1, by decide, le_rfl⟩

end TrtLlm.KvCache.SlotAllocator
