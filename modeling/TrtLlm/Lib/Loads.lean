import Mathlib

/-!
# Loads under a cap

A row of counters, one per worker. `bump` adds one to a counter; `room` is how many more a cap leaves: work can be
placed below the cap as long as there is room, in any order. `pyIndex` is the position that an index names in a Python
list, where negative indices count from the end.
-/

namespace TrtLlm

open List

def pyIndex (length : ℕ) (i : ℤ) : Option ℕ :=
  if 0 ≤ i then if i < length then some i.toNat else none
  else if -length ≤ i then some (i + length).toNat else none

theorem pyIndex_lt {length k : ℕ} {i : ℤ} (h : pyIndex length i = some k) : k < length := by
  unfold pyIndex at h
  split at h <;> split at h <;> simp only [Option.some.injEq, reduceCtorEq] at h <;> omega

theorem pyIndex_isSome_iff {length : ℕ} {i : ℤ} : (pyIndex length i).isSome ↔ -length ≤ i ∧ i < length := by
  unfold pyIndex
  split <;> split <;> simp <;> omega

@[simp] theorem pyIndex_natCast {length k : ℕ} (hk : k < length) : pyIndex length k = some k := by
  simp [pyIndex, hk]

def bump (loads : List ℕ) (k : ℕ) : List ℕ := loads.modify k (· + 1)

def room (cap : ℕ) (loads : List ℕ) : ℕ := (loads.map (cap - ·)).sum

section

variable {cap k j : ℕ} {loads : List ℕ}

@[simp] theorem length_bump : (bump loads k).length = loads.length := length_modify ..

theorem getD_bump (hk : k < loads.length) : (bump loads k).getD j 0 = if k = j then loads.getD j 0 + 1 else loads.getD j 0 := by
  rw [bump, getD_eq_getElem?_getD, getElem?_modify]
  split
  · rename_i hkj
    subst hkj
    simp [hk]
  · simp

theorem getD_bump_le {bound : ℕ → ℕ} (hk : k < loads.length) (hlt : loads.getD k 0 < bound k)
    (hle : ∀ j, loads.getD j 0 ≤ bound j) (j : ℕ) : (bump loads k).getD j 0 ≤ bound j := by
  rw [getD_bump hk]
  split
  · rename_i hkj
    exact hkj ▸ hlt
  · exact hle j

theorem max_getD_bump (hk : k < loads.length) (hlt : loads.getD k 0 < cap) :
    max cap ((bump loads k).getD j 0) = max cap (loads.getD j 0) := by
  rw [getD_bump hk]
  split
  · rename_i hkj
    subst hkj
    omega
  · rfl

theorem sum_bump (hk : k < loads.length) : (bump loads k).sum = loads.sum + 1 := by
  induction loads generalizing k with
  | nil => simp at hk
  | cons load loads ih =>
    cases k with
    | zero => simp [bump]; omega
    | succ k =>
      have htail := ih (by simpa using hk)
      simp only [bump, modify_succ_cons, sum_cons] at htail ⊢
      omega

theorem room_bump (hk : k < loads.length) (hlt : loads.getD k 0 < cap) : room cap (bump loads k) + 1 = room cap loads := by
  induction loads generalizing k with
  | nil => simp at hk
  | cons load loads ih =>
    cases k with
    | zero =>
      simp only [getD_cons_zero] at hlt
      simp [bump, room]
      omega
    | succ k =>
      have htail := ih (by simpa using hk) hlt
      simp only [bump, room, modify_succ_cons, map_cons, sum_cons] at htail ⊢
      omega

theorem room_pos_iff : 0 < room cap loads ↔ ∃ k < loads.length, loads.getD k 0 < cap := by
  induction loads with
  | nil => simp [room]
  | cons load loads ih =>
    have hsplit : 0 < room cap (load :: loads) ↔ load < cap ∨ 0 < room cap loads := by
      simp only [room, map_cons, sum_cons]
      omega
    rw [hsplit, ih]
    constructor
    · rintro (hlt | ⟨k, hk, hlt⟩)
      · exact ⟨0, by simp, by simpa using hlt⟩
      · exact ⟨k + 1, by simpa using hk, by simpa using hlt⟩
    · rintro ⟨k, hk, hlt⟩
      cases k with
      | zero => exact .inl hlt
      | succ k => exact .inr ⟨k, by simpa using hk, by simpa using hlt⟩

theorem le_room (cap : ℕ) (loads : List ℕ) : loads.length * cap ≤ room cap loads + loads.sum := by
  induction loads with
  | nil => simp
  | cons load loads ih =>
    simp only [room, length_cons, map_cons, sum_cons, Nat.succ_mul] at ih ⊢
    omega

theorem room_add_sum_of_le (hle : ∀ k, loads.getD k 0 ≤ cap) : room cap loads + loads.sum = loads.length * cap := by
  induction loads with
  | nil => simp [room]
  | cons load loads ih =>
    have hhead : load ≤ cap := by simpa using hle 0
    have htail := ih fun k => by simpa using hle (k + 1)
    simp only [room, length_cons, map_cons, sum_cons, Nat.succ_mul] at htail ⊢
    omega

end

structure Placement (α : Type*) where
  loads : List ℕ
  assigned : List (List α)
  deriving DecidableEq

namespace Placement

variable {α : Type*}

def start (loads : List ℕ) : Placement α := ⟨loads, loads.map fun _ => []⟩

def place (p : Placement α) (k : ℕ) (a : α) : Placement α := ⟨bump p.loads k, p.assigned.modify k (· ++ [a])⟩

structure Holds (loads : List ℕ) (items : List α) (p : Placement α) : Prop where
  length_loads : p.loads.length = loads.length
  length_assigned : p.assigned.length = loads.length
  perm : p.assigned.flatten.Perm items
  load : ∀ k < loads.length, p.loads.getD k 0 = loads.getD k 0 + (p.assigned.getD k []).length
  sum_loads : p.loads.sum = loads.sum + items.length

theorem getD_assigned_place {p : Placement α} {k j : ℕ} {a : α} (hk : k < p.assigned.length) :
    (p.place k a).assigned.getD j [] = if k = j then p.assigned.getD j [] ++ [a] else p.assigned.getD j [] := by
  rw [place, getD_eq_getElem?_getD, getElem?_modify]
  split
  · rename_i hkj
    subst hkj
    simp [hk]
  · simp

variable {lists lists' : List (List α)}

theorem flatten_modify_append_perm {k : ℕ} (hk : k < lists.length) (a : α) :
    (lists.modify k (· ++ [a])).flatten.Perm (lists.flatten ++ [a]) := by
  induction lists generalizing k with
  | nil => simp at hk
  | cons l lists ih =>
    cases k with
    | zero =>
      simp only [modify_zero_cons, flatten_cons, append_assoc]
      exact perm_append_comm.append_left l
    | succ k =>
      simp only [flatten_cons, append_assoc]
      exact (ih (by simpa using hk)).append_left l

theorem flatten_zipWith_append_perm (h : lists.length = lists'.length) :
    (List.zipWith (· ++ ·) lists lists').flatten.Perm (lists.flatten ++ lists'.flatten) := by
  induction lists generalizing lists' with
  | nil => simp [length_eq_zero_iff.1 h.symm]
  | cons l lists ih =>
    cases lists' with
    | nil => simp at h
    | cons l' lists' =>
      simp only [zipWith_cons_cons, flatten_cons, append_assoc]
      refine ((ih (by simpa using h)).append_left l').trans ?_ |>.append_left l
      exact perm_append_comm_assoc _ _ _

theorem getD_zipWith_append (hlength : lists.length = lists'.length) (k : ℕ) :
    (List.zipWith (· ++ ·) lists lists').getD k [] = lists.getD k [] ++ lists'.getD k [] := by
  by_cases hk : k < lists.length
  · have hk' : k < lists'.length := hk.trans_eq hlength
    simp [hk, hk']
  · have hk' : ¬ k < lists'.length := fun hlt => hk (hlt.trans_eq hlength.symm)
    simp [hk, hk']

namespace Holds

variable {loads : List ℕ} {items items' : List α} {p : Placement α} {k : ℕ} {a : α}

theorem start (loads : List ℕ) : Holds loads ([] : List α) (Placement.start loads) where
  length_loads := rfl
  length_assigned := by simp [Placement.start]
  perm := by simp [Placement.start]
  load := by
    intro k hk
    simp [Placement.start, hk]
  sum_loads := rfl

theorem place (h : Holds loads items p) (hk : k < loads.length) (a : α) : Holds loads (items ++ [a]) (p.place k a) where
  length_loads := length_bump.trans h.length_loads
  length_assigned := by simpa [Placement.place] using h.length_assigned
  perm := (flatten_modify_append_perm (hk.trans_eq h.length_assigned.symm) a).trans (h.perm.append_right [a])
  load := by
    intro j hj
    have hload := h.load j hj
    have hbump := getD_bump (j := j) (hk.trans_eq h.length_loads.symm)
    rw [getD_assigned_place (hk.trans_eq h.length_assigned.symm)]
    simp only [Placement.place, hbump]
    split
    · simp only [length_append, length_singleton]
      omega
    · exact hload
  sum_loads := by
    have hsum := sum_bump (hk.trans_eq h.length_loads.symm)
    have hbefore := h.sum_loads
    simp only [Placement.place, length_append, length_singleton]
    omega

theorem append {p' : Placement α} (h : Holds loads items p) (h' : Holds p.loads items' p') :
    Holds loads (items ++ items') ⟨p'.loads, List.zipWith (· ++ ·) p.assigned p'.assigned⟩ where
  length_loads := h'.length_loads.trans h.length_loads
  length_assigned := by
    rw [length_zipWith, h.length_assigned, h'.length_assigned, h.length_loads, min_self]
  perm := by
    refine (flatten_zipWith_append_perm ?_).trans (h.perm.append h'.perm)
    rw [h.length_assigned, h'.length_assigned, h.length_loads]
  load := by
    intro k hk
    have hfirst := h.load k hk
    have hsecond := h'.load k (hk.trans_eq h.length_loads.symm)
    dsimp only
    rw [getD_zipWith_append (by rw [h.length_assigned, h'.length_assigned, h.length_loads]), length_append]
    omega
  sum_loads := by
    have hfirst := h.sum_loads
    have hsecond := h'.sum_loads
    dsimp only
    rw [length_append]
    omega

theorem perm_items (h : Holds loads items p) (hperm : items.Perm items') : Holds loads items' p :=
  { h with perm := h.perm.trans hperm, sum_loads := h.sum_loads.trans (by rw [hperm.length_eq]) }

end Holds

end Placement

end TrtLlm
