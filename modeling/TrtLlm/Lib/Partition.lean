import Mathlib

/-!
# Grouping a list by a key

The groups stand in the order in which their keys first occur, and each group keeps the order of the list.
-/

namespace TrtLlm

open List

variable {α κ : Type*} [DecidableEq κ]

def addToGroup (key : κ) (x : α) : List (κ × List α) → List (κ × List α)
  | [] => [(key, [x])]
  | (k, xs) :: groups => if key = k then (k, xs ++ [x]) :: groups else (k, xs) :: addToGroup key x groups

def partition (classifier : α → κ) (xs : List α) : List (κ × List α) :=
  xs.foldl (fun groups x => addToGroup (classifier x) x groups) []

theorem addToGroup_spec {cls : α → κ} {groups : List (κ × List α)} (x : α)
    (h : ∀ group ∈ groups, group.2 ≠ [] ∧ ∀ y ∈ group.2, cls y = group.1) :
    ((addToGroup (cls x) x groups).flatMap Prod.snd).Perm (groups.flatMap Prod.snd ++ [x]) ∧
      ∀ group ∈ addToGroup (cls x) x groups, group.2 ≠ [] ∧ ∀ y ∈ group.2, cls y = group.1 := by
  induction groups with
  | nil => simp [addToGroup]
  | cons group groups ih =>
    obtain ⟨hgroup, hgroups⟩ := forall_mem_cons.1 h
    unfold addToGroup
    split
    · rename_i heq
      have hmine : ∀ y ∈ group.2 ++ [x], cls y = group.1 := forall_mem_append.2 ⟨hgroup.2, forall_mem_singleton.2 heq⟩
      refine ⟨?_, forall_mem_cons.2 ⟨⟨by simp, hmine⟩, hgroups⟩⟩
      rw [flatMap_cons, flatMap_cons, append_assoc, append_assoc]
      exact perm_append_comm.append_left _
    · obtain ⟨hperm, hrest⟩ := ih hgroups
      refine ⟨?_, forall_mem_cons.2 ⟨hgroup, hrest⟩⟩
      rw [flatMap_cons, flatMap_cons, append_assoc]
      exact hperm.append_left _

/-- The groups split the list, no group is empty, and every member of a group has the group's key. -/
theorem partition_spec (cls : α → κ) (xs : List α) :
    ((partition cls xs).flatMap Prod.snd).Perm xs ∧
      ∀ group ∈ partition cls xs, group.2 ≠ [] ∧ ∀ y ∈ group.2, cls y = group.1 := by
  induction xs using reverseRecOn with
  | nil => exact ⟨.refl _, by simp [partition]⟩
  | append_singleton xs x ih =>
    have hstep : partition cls (xs ++ [x]) = addToGroup (cls x) x (partition cls xs) := by
      simp [partition]
    obtain ⟨hperm, hgroups⟩ := addToGroup_spec x ih.2
    rw [hstep]
    exact ⟨hperm.trans (ih.1.append_right [x]), hgroups⟩

end TrtLlm
