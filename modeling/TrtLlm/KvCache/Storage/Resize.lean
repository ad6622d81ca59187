import TrtLlm.KvCache.Storage.Bring

/-!
# Resizing a pool group

`shrink_pool_group` first forbids the slots above the new size, then evicts and defragments, and at last gives the
slots up; if an exception ends it in between, the new size stays as a target. Its steps are programs of their own here.
-/

namespace TrtLlm.KvCache.StorageParams

variable {T : Type} {P : StorageParams T}

def resizeBy (P : StorageParams T) (level pg : Nat)
    (change : (EventId → Bool) → SlotAllocator → Except AllocError SlotAllocator) : StorageM T PUnit := fun s =>
  match change (P.complete s.time) (s.pool level pg) with
  | .error e => .error (.alloc e) s
  | .ok a => .ok ⟨⟩ (s.setPool level pg a)

variable (P)

def prepareForShrink (level pg newNumSlots : Nat) : StorageM T PUnit :=
  P.resizeBy level pg fun _ => SlotAllocator.prepareForShrink newNumSlots

def finishShrink (level pg : Nat) : StorageM T PUnit := P.resizeBy level pg SlotAllocator.finishShrink

def expandPoolGroup (level pg newNumSlots : Nat) : StorageM T PUnit :=
  P.resizeBy level pg fun _ => SlotAllocator.expand newNumSlots

/-- The migration within a level that moves pages out of the slots to be given up. A page may be listed twice. -/
def defragment (level pg : Nat) (ids : List PageId) : StorageM T PUnit := P.batchedMigrate pg level level ids true

variable {s t : Storage T} {level pg : Nat} {P}

theorem resizeBy_spec (h : P.Inv s) {change : (EventId → Bool) → SlotAllocator → Except AllocError SlotAllocator}
    (hchange : ∀ {complete a b}, SlotAllocator.Inv a → change complete a = .ok b → b.Inv ∧ b.occupiedIds = a.occupiedIds) :
    Ends (P.resizeBy level pg change s) (fun _ t => P.Inv t ∧ t.page = s.page) (fun _ t => t = s) := by
  cases hrun : change (P.complete s.time) (s.pool level pg) with
  | error e => exact .of_error (by rw [resizeBy, hrun]) rfl
  | ok a =>
    obtain ⟨ha, hocc⟩ := hchange (h.slots.pools level pg) hrun
    have hinv : P.Inv (s.setPool level pg a) := h.setPool ha (fun _ hmine _ => hocc ▸ hmine) 0
    exact .of_ok (by rw [resizeBy, hrun]) ⟨hinv, rfl⟩

theorem prepareForShrink_spec (h : P.Inv s) (level pg newNum : Nat) :
    Ends (P.prepareForShrink level pg newNum s) (fun _ t => P.Inv t ∧ t.page = s.page) (fun _ t => t = s) := by
  apply resizeBy_spec h
  intro complete a b ha hrun
  have hok := hrun
  rw [SlotAllocator.prepareForShrink] at hrun
  split_ifs at hrun with hstable hshrink
  obtain ⟨b', hb', hinv, hocc, _⟩ := ha.prepareForShrink_spec (not_not.1 hstable) (not_le.1 hshrink)
  cases hok.symm.trans hb'
  exact ⟨hinv, hocc⟩

theorem finishShrink_spec (h : P.Inv s) (level pg : Nat) :
    Ends (P.finishShrink level pg s) (fun _ t => P.Inv t ∧ t.page = s.page) (fun _ t => t = s) := by
  apply resizeBy_spec h
  intro complete a b ha hrun
  obtain ⟨hinv, hocc, _⟩ := ha.finishShrink_spec complete hrun
  exact ⟨hinv, hocc⟩

theorem expandPoolGroup_spec (h : P.Inv s) (level pg newNum : Nat) :
    Ends (P.expandPoolGroup level pg newNum s) (fun _ t => P.Inv t ∧ t.page = s.page) (fun _ t => t = s) := by
  apply resizeBy_spec h
  intro complete a b ha hrun
  have hok := hrun
  rw [SlotAllocator.expand] at hrun
  split_ifs at hrun with hstable hgrow
  obtain ⟨b', hb', hinv, hocc, _⟩ := ha.expand_spec (not_not.1 hstable) (not_le.1 hgrow)
  cases hok.symm.trans hb'
  exact ⟨hinv, hocc⟩

/-- Pages changed slots within their pool groups, and nothing else. -/
def Reseated (s t : Storage T) : Prop :=
  ∀ id, t.page id = s.page id ∨ ∃ p slot, s.page id = some p ∧ t.page id = some { p with slot := slot }

theorem Reseated.complete {X : PageId → Prop} (h : Reseated s t) (hcomplete : P.Complete X s) : P.Complete X t := by
  intro id q hq hX hneeds
  rcases h id with hsame | ⟨p, slot, hp, hq'⟩
  · exact hcomplete id q (hsame ▸ hq) hX hneeds
  · rw [hq'] at hq
    cases hq
    exact hcomplete id p hp hX hneeds

theorem defragment_spec (h : P.Inv s) (hlevel : level < P.numCacheLevels)
    {ids : List PageId} (hids : ∀ id ∈ ids, ∃ p, s.page id = some p ∧ p.cacheLevel = level ∧ P.poolGroup p = pg) :
    Ends (P.defragment level pg ids s) (fun _ t => P.Inv t ∧ Reseated s t) (fun e t => e = .outOfPages ∧ t = s) := by
  have hlevels : (true || level ≠ level) = true := rfl
  have hmigrate := batchedMigrate_spec h hlevel hlevels (.inr rfl) fun id hid => by
    obtain ⟨p, hp, hl, hgroup⟩ := hids id hid
    exact ⟨p, hp, hl, hgroup, fun _ => ⟨rfl, rfl⟩⟩
  refine hmigrate.mono (fun _ t ht => ⟨ht.1, fun id => ?_⟩) fun _ _ he => ⟨he.1, he.2.1⟩
  by_cases hid : id ∈ ids
  · obtain ⟨p, hp, hl, _⟩ := hids id hid
    obtain ⟨slot, hslot⟩ := ht.2.moved id hid p hp
    rw [← hl] at hslot
    exact .inr ⟨p, slot, hp, hslot⟩
  · exact .inl (ht.2.others id hid)

end TrtLlm.KvCache.StorageParams
