import Mathlib

/-!
# Quotas

A pool holds an amount for each key, and an item takes some of each. The pool covers a list of items when the amounts
the items take together are there; what is left may be negative when it does not.
-/

namespace TrtLlm.Quota

variable {κ α : Type*} (need : α → κ → ℕ)

def total (items : List α) (key : κ) : ℕ := (items.map fun item => need item key).sum

def left (pool : List (κ × ℤ)) (items : List α) : List (κ × ℤ) :=
  pool.map fun entry => (entry.1, entry.2 - total need items entry.1)

def Covers (pool : List (κ × ℤ)) (items : List α) : Prop := ∀ entry ∈ pool, (total need items entry.1 : ℤ) ≤ entry.2

variable {need} {pool : List (κ × ℤ)} {items items' : List α}

@[simp] theorem total_nil (key : κ) : total need [] key = 0 := rfl

@[simp] theorem total_singleton (item : α) (key : κ) : total need [item] key = need item key := by
  simp [total]

@[simp] theorem total_append (key : κ) : total need (items ++ items') key = total need items key + total need items' key := by
  simp [total]

@[simp] theorem left_nil : left need pool [] = pool := by
  simp [left]

theorem left_append_singleton (item : α) : left need pool (items ++ [item]) =
    (left need pool items).map fun entry => (entry.1, entry.2 - (need item entry.1 : ℤ)) := by
  simp only [left, List.map_map]
  refine List.map_congr_left fun entry _ => ?_
  simp only [Function.comp, total_append, total_singleton, Nat.cast_add, sub_sub]

theorem covers_perm (h : items.Perm items') : Covers need pool items ↔ Covers need pool items' := by
  simp only [Covers, total, (h.map _).sum_eq]

theorem covers_append : Covers need pool (items ++ items') ↔ Covers need (left need pool items) items' := by
  simp only [Covers, left, List.forall_mem_map, total_append]
  refine forall₂_congr fun entry _ => ?_
  push_cast
  constructor <;> intro h <;> linarith

end TrtLlm.Quota
