import Mathlib

/-!
# Insertion-ordered dictionaries

A Python `dict`: entries in the order in which their keys were first inserted, each key once. All writing goes through
`upsert`, which replaces the value of a present key in place and appends a new key; `get?_upsert` is all that clients
need of it.
-/

namespace TrtLlm

open List Prod

structure Dict (κ β : Type*) where
  entries : List (κ × β)
  nodup : (entries.map fst).Nodup

namespace Dict

variable {κ β : Type*}

def empty : Dict κ β := ⟨[], nodup_nil⟩

instance : EmptyCollection (Dict κ β) := ⟨empty⟩

variable (d : Dict κ β)

def keys : List κ := d.entries.map fst

def values : List β := d.entries.map snd

variable [DecidableEq κ]

instance [DecidableEq β] : DecidableEq (Dict κ β) := fun d e =>
  decidable_of_iff (d.entries = e.entries) ⟨fun h => by cases d; cases e; cases h; rfl, fun h => by rw [h]⟩

variable (k : κ)

def lookupEntries (k : κ) : List (κ × β) → Option β
  | [] => none
  | (j, v) :: rest => if j = k then some v else lookupEntries k rest

def get? : Option β := lookupEntries k d.entries

/-- Write `f` of the present value at `k` in place, or `f none` at the end. -/
def upsertEntries (k : κ) (f : Option β → β) : List (κ × β) → List (κ × β)
  | [] => [(k, f none)]
  | (j, v) :: rest => if j = k then (k, f (some v)) :: rest else (j, v) :: upsertEntries k f rest

variable (f : Option β → β)

theorem keys_upsertEntries (entries : List (κ × β)) :
    (upsertEntries k f entries).map fst =
      if k ∈ entries.map fst then entries.map fst else entries.map fst ++ [k] := by
  induction entries with
  | nil => rfl
  | cons entry rest ih =>
    obtain ⟨j, v⟩ := entry
    by_cases hj : j = k
    · simp [upsertEntries, hj]
    rw [upsertEntries, if_neg hj, map_cons, ih]
    have hk : k ≠ j := fun h => hj h.symm
    by_cases hmem : k ∈ rest.map fst
    · rw [if_pos hmem, map_cons, if_pos (.tail _ hmem)]
    · rw [if_neg hmem, map_cons, if_neg (by rw [mem_cons, not_or]; exact ⟨hk, hmem⟩), cons_append]

def upsert : Dict κ β where
  entries := upsertEntries k f d.entries
  nodup := by
    rw [keys_upsertEntries]
    split
    · exact d.nodup
    · rename_i hmem
      exact d.nodup.append (nodup_singleton k) fun j hj hk => hmem (mem_singleton.mp hk ▸ hj)

def insert (v : β) : Dict κ β := d.upsert k fun _ => v

def erase : Dict κ β where
  entries := d.entries.filter fun entry => entry.1 ≠ k
  nodup := d.nodup.sublist (filter_sublist.map _)

def ofList (entries : List (κ × β)) : Dict κ β := entries.foldl (fun d entry => d.insert entry.1 entry.2) ∅

@[simp] theorem get?_empty : (∅ : Dict κ β).get? k = none := rfl

theorem get?_upsert (k j : κ) (f : Option β → β) : (d.upsert k f).get? j = if j = k then some (f (d.get? k)) else d.get? j := by
  unfold get? upsert
  dsimp only
  induction d.entries with
  | nil =>
    exact if_congr eq_comm rfl rfl
  | cons entry rest ih =>
    obtain ⟨i, v⟩ := entry
    rw [upsertEntries]
    split
    · rename_i hi
      subst hi
      by_cases hj : j = i <;> simp [lookupEntries, hj, eq_comm]
    · rename_i hi
      rw [lookupEntries, ih, lookupEntries, lookupEntries, if_neg hi]
      by_cases hj : i = j
      · rw [if_pos hj, if_pos hj, if_neg (hj ▸ hi)]
      · rw [if_neg hj, if_neg hj]

@[simp] theorem get?_insert (k j : κ) (v : β) : (d.insert k v).get? j = if j = k then some v else d.get? j := d.get?_upsert k j _

variable {v : β}

theorem get?_insert_of_ne {d : Dict κ β} {k j : κ} (hne : j ≠ k) : (d.insert k v).get? j = d.get? j := by
  rw [get?_insert, if_neg hne]

theorem get?_insert_self (v : β) : (d.insert k v).get? k = some v := by
  simp

variable {d : Dict κ β} {k : κ} {entries : List (κ × β)}

theorem mem_entries_iff : (k, v) ∈ d.entries ↔ d.get? k = some v := by
  obtain ⟨entries, hnodup⟩ := d
  unfold get?
  induction entries with
  | nil => simp [lookupEntries]
  | cons entry rest ih =>
    obtain ⟨j, w⟩ := entry
    rw [map_cons, nodup_cons] at hnodup
    rw [mem_cons, lookupEntries]
    split
    · rename_i hj
      subst hj
      have hfresh : (j, v) ∉ rest := fun hmem => hnodup.1 (mem_map.2 ⟨(j, v), hmem, rfl⟩)
      simp only [Prod.mk.injEq, true_and, Option.some.injEq, hfresh, or_false]
      exact eq_comm
    · rename_i hj
      rw [← ih hnodup.2, Prod.mk.injEq]
      exact or_iff_right fun h => hj h.1.symm

theorem mem_keys_iff : k ∈ d.keys ↔ ∃ v, d.get? k = some v := by
  simp only [keys, mem_map, ← mem_entries_iff]
  constructor
  · rintro ⟨⟨j, v⟩, hmem, rfl⟩
    exact ⟨v, hmem⟩
  · rintro ⟨v, hmem⟩
    exact ⟨(k, v), hmem, rfl⟩

theorem get?_of_entries_nil (hnil : d.entries = []) (k : κ) : d.get? k = none := by
  rw [get?, hnil]
  rfl

theorem mem_values_iff : v ∈ d.values ↔ ∃ k, d.get? k = some v := by
  simp only [values, mem_map, ← mem_entries_iff]
  constructor
  · rintro ⟨⟨k, w⟩, hmem, rfl⟩
    exact ⟨k, hmem⟩
  · rintro ⟨k, hmem⟩
    exact ⟨(k, v), hmem, rfl⟩

theorem entries_erase (d : Dict κ β) (k : κ) : (d.erase k).entries = d.entries.filter fun entry => entry.1 ≠ k := rfl

theorem get?_erase (d : Dict κ β) (k j : κ) : (d.erase k).get? j = if j = k then none else d.get? j := by
  apply Option.ext
  intro v
  rw [← mem_entries_iff]
  show (j, v) ∈ d.entries.filter (fun entry => entry.1 ≠ k) ↔ _
  rw [mem_filter, mem_entries_iff]
  by_cases hj : j = k <;> simp [hj]

theorem exists_split (hget : d.get? k = some v) :
    ∃ before after, d.entries = before ++ (k, v) :: after ∧ ∀ entry ∈ before ++ after, entry.1 ≠ k := by
  obtain ⟨before, after, hsplit⟩ := append_of_mem (mem_entries_iff.2 hget)
  refine ⟨before, after, hsplit, fun entry hentry heq => ?_⟩
  have hnodup := d.nodup
  rw [hsplit, map_append, map_cons, nodup_middle, nodup_cons, ← map_append] at hnodup
  exact hnodup.1 (mem_map.2 ⟨entry, hentry, heq⟩)

variable {before after : List (κ × β)}

theorem entries_erase_of_split (hsplit : d.entries = before ++ (k, v) :: after)
    (hothers : ∀ entry ∈ before ++ after, entry.1 ≠ k) : (d.erase k).entries = before ++ after := by
  have hall : (before ++ after).filter (fun entry => entry.1 ≠ k) = before ++ after :=
    filter_eq_self.2 fun entry hentry => by simpa using hothers entry hentry
  rw [entries_erase, hsplit, filter_append, filter_cons_of_neg (by simp), ← filter_append, hall]

theorem entries_upsert_of_split (hsplit : d.entries = before ++ (k, v) :: after)
    (hothers : ∀ entry ∈ before ++ after, entry.1 ≠ k) :
    (d.upsert k f).entries = before ++ (k, f (some v)) :: after := by
  show upsertEntries k f d.entries = _
  rw [hsplit]
  clear hsplit
  induction before with
  | nil => simp [upsertEntries]
  | cons entry before ih =>
    have hne : entry.1 ≠ k := hothers entry (by simp)
    have hrest := ih (forall_mem_cons.1 hothers).2
    simp [upsertEntries, hne, hrest]

theorem erase_of_absent (habsent : d.get? k = none) : d.erase k = d := by
  have hall : d.entries.filter (fun entry => entry.1 ≠ k) = d.entries := filter_eq_self.2 fun entry hentry => by
    rw [decide_eq_true_eq]
    rintro rfl
    exact nomatch habsent.symm.trans (mem_entries_iff.1 hentry)
  simp only [erase, hall]

theorem countP_erase (d : Dict κ β) (k : κ) (p : κ × β → Bool) :
    d.entries.countP p = (d.erase k).entries.countP p + ((d.get? k).elim 0 fun v => if p (k, v) then 1 else 0) := by
  cases hget : d.get? k with
  | none =>
    rw [erase_of_absent hget]
    rfl
  | some v =>
    obtain ⟨before, after, hsplit, hothers⟩ := exists_split hget
    rw [entries_erase_of_split hsplit hothers, hsplit]
    simp [countP_cons, Nat.add_assoc]

theorem countP_insert (d : Dict κ β) (k : κ) (v : β) (p : κ × β → Bool) :
    (d.insert k v).entries.countP p = (d.erase k).entries.countP p + if p (k, v) then 1 else 0 := by
  have hentries : ((d.insert k v).erase k).entries = (d.erase k).entries := by
    show (upsertEntries k _ d.entries).filter _ = d.entries.filter _
    induction d.entries with
    | nil => simp [upsertEntries]
    | cons entry rest ih =>
      rw [upsertEntries]
      split
      · rename_i hk
        simp [hk]
      · simp only [filter_cons, ih]
  rw [countP_erase (d.insert k v) k, hentries, get?_insert_self]
  rfl

theorem entries_upsert_of_absent (h : d.get? k = none) : (d.upsert k f).entries = d.entries ++ [(k, f none)] := by
  obtain ⟨entries, hnodup⟩ := d
  show upsertEntries k f entries = entries ++ [(k, f none)]
  replace h : lookupEntries k entries = none := h
  clear hnodup
  induction entries with
  | nil => rfl
  | cons entry rest ih =>
    rw [lookupEntries] at h
    split at h
    · cases h
    · rename_i hj
      simp [upsertEntries, hj, ih h]

/-- The last entry of a key is the one that counts. -/
theorem get?_ofList_eq (entries : List (κ × β)) :
    (ofList entries).get? k = (entries.reverse.find? fun entry => entry.1 = k).map Prod.snd := by
  induction entries using reverseRecOn with
  | nil => simp [ofList]
  | append_singleton entries entry ih =>
    have hlast : ofList (entries ++ [entry]) = (ofList entries).insert entry.1 entry.2 := by simp [ofList]
    rw [hlast, get?_insert, ih]
    by_cases hk : entry.1 = k
    · simp [hk]
    · simp [hk, Ne.symm hk]

theorem mem_of_get?_ofList (h : (ofList entries).get? k = some v) : (k, v) ∈ entries := by
  rw [get?_ofList_eq] at h
  obtain ⟨entry, hfind, rfl⟩ := Option.map_eq_some_iff.1 h
  obtain rfl : entry.1 = k := by simpa using find?_some hfind
  exact mem_reverse.1 (mem_of_find?_eq_some hfind)

theorem exists_get?_ofList (hmem : (k, v) ∈ entries) : ∃ w, (ofList entries).get? k = some w := by
  have hsome : (entries.reverse.find? fun entry => entry.1 = k).isSome := find?_isSome.2 ⟨(k, v), by simpa using hmem, by simp⟩
  obtain ⟨entry, hfind⟩ := Option.isSome_iff_exists.1 hsome
  exact ⟨entry.2, by rw [get?_ofList_eq, hfind, Option.map_some]⟩

theorem get?_ofList (hnodup : (entries.map Prod.fst).Nodup) (hmem : (k, v) ∈ entries) : (ofList entries).get? k = some v := by
  obtain ⟨w, hw⟩ := exists_get?_ofList hmem
  have heq := inj_on_of_nodup_map hnodup (mem_of_get?_ofList hw) hmem rfl
  rw [hw, (Prod.mk.inj heq).2]

theorem mem_of_get?_collect {α : Type*} {key : α → κ} {xs : List α} {same : List α}
    (h : (xs.foldl (fun d x => d.upsert (key x) fun same => same.getD [] ++ [x]) (∅ : Dict κ (List α))).get? k = some same)
    {x : α} (hx : x ∈ same) : x ∈ xs ∧ key x = k := by
  have hfold : ∀ (rest : List α) (d : Dict κ (List α)),
      (∀ k same, d.get? k = some same → ∀ x ∈ same, x ∈ xs ∧ key x = k) → (∀ x ∈ rest, x ∈ xs) →
      ∀ k same, (rest.foldl (fun d x => d.upsert (key x) fun same => same.getD [] ++ [x]) d).get? k = some same →
        ∀ x ∈ same, x ∈ xs ∧ key x = k := by
    intro rest
    induction rest with
    | nil => exact fun d hd _ => hd
    | cons y rest ih =>
      intro d hd hsub
      refine ih _ (fun k same h x hx => ?_) (forall_mem_cons.1 hsub).2
      rw [get?_upsert] at h
      split at h
      · rename_i hk
        cases h
        rcases mem_append.1 hx with hx | hx
        · cases hold : d.get? (key y) with
          | none => simp [hold] at hx
          | some old => exact hd k old (hk ▸ hold) x (by simpa [hold] using hx)
        · rw [mem_singleton.1 hx]
          exact ⟨hsub y (.head _), hk.symm⟩
      · exact hd k same h x hx
  exact hfold xs ∅ nofun (fun _ hx => hx) k same h x hx

end Dict

end TrtLlm
