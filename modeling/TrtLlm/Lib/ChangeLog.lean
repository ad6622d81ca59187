import Mathlib

/-!
# Logs of additions and removals

A log of changes to a set, and what a reader sees who replays it: adding an element that is present, or removing one
that is absent, is an error. A log may be reordered as long as the changes to each element keep their order.
-/

namespace TrtLlm

open List

inductive Change (α : Type*) where
  | add (a : α)
  | remove (a : α)
deriving DecidableEq, Repr

namespace Change

variable {α : Type*}

def item : Change α → α
  | .add a => a
  | .remove a => a

@[simp] theorem item_add (a : α) : (add a).item = a := rfl

@[simp] theorem item_remove (a : α) : (remove a).item = a := rfl

variable [DecidableEq α]

/-- The set after a change; `none` if the change does not fit. -/
def apply (mirror : Finset α) : Change α → Option (Finset α)
  | .add a => if a ∈ mirror then none else some (insert a mirror)
  | .remove a => if a ∈ mirror then some (mirror.erase a) else none

variable {mirror : Finset α} {a : α}

theorem apply_remove_of_mem (ha : a ∈ mirror) : apply mirror (.remove a) = some (mirror.erase a) := if_pos ha

theorem apply_comm (mirror : Finset α) {c d : Change α} (hne : c.item ≠ d.item) :
    (apply mirror c).bind (apply · d) = (apply mirror d).bind (apply · c) := by
  have hne' := hne.symm
  by_cases hc : c.item ∈ mirror <;> by_cases hd : d.item ∈ mirror <;> cases c <;> cases d <;>
    simp_all [apply, Finset.insert_comm, Finset.erase_insert_of_ne, Finset.erase_right_comm]

end Change

abbrev ChangeLog (α : Type*) := List (Change α)

namespace ChangeLog

variable {α : Type*} [DecidableEq α] (mirror : Finset α)

def replay (log : ChangeLog α) : Option (Finset α) := log.foldlM Change.apply mirror

@[simp] theorem replay_nil : replay mirror [] = some mirror := rfl

@[simp] theorem replay_cons (c : Change α) (log : ChangeLog α) :
    replay mirror (c :: log) = (Change.apply mirror c).bind (replay · log) := rfl

theorem replay_append (log log' : ChangeLog α) : replay mirror (log ++ log') = (replay mirror log).bind (replay · log') := by
  induction log generalizing mirror with
  | nil => rfl
  | cons c log ih => simp [ih, Option.bind_assoc]

def Same (log log' : ChangeLog α) : Prop := ∀ mirror, replay mirror log = replay mirror log'

namespace Same

variable {log log' log'' rest rest' : ChangeLog α}

theorem refl (log : ChangeLog α) : Same log log := fun _ => rfl

theorem trans (h : Same log log') (h' : Same log' log'') : Same log log'' := fun mirror => (h mirror).trans (h' mirror)

theorem append (h : Same log log') (h' : Same rest rest') : Same (log ++ rest) (log' ++ rest') := by
  intro mirror
  rw [replay_append, replay_append, h mirror]
  congr 1
  funext mirror'
  exact h' mirror'

theorem append_left (log : ChangeLog α) (h : Same rest rest') : Same (log ++ rest) (log ++ rest') := (refl log).append h

theorem append_right (h : Same log log') (rest : ChangeLog α) : Same (log ++ rest) (log' ++ rest) := h.append (refl rest)

end Same

theorem same_cons_comm {c : Change α} {log : ChangeLog α} (hlog : ∀ d ∈ log, c.item ≠ d.item) : Same (c :: log) (log ++ [c]) := by
  induction log with
  | nil => exact .refl _
  | cons d log ih =>
    have htail : Same (c :: log) (log ++ [c]) := ih (forall_mem_cons.1 hlog).2
    refine .trans ?_ (htail.append_left [d])
    intro mirror
    have hcomm := Change.apply_comm mirror (hlog d (.head _))
    simp only [replay_cons, singleton_append]
    rw [← Option.bind_assoc, hcomm, Option.bind_assoc]

theorem same_append_comm {log log' : ChangeLog α} (hdisjoint : ∀ c ∈ log, ∀ d ∈ log', c.item ≠ d.item) :
    Same (log ++ log') (log' ++ log) := by
  induction log with
  | nil => rw [append_nil]; exact .refl _
  | cons c log ih =>
    have htail : Same (log ++ log') (log' ++ log) := ih (forall_mem_cons.1 hdisjoint).2
    have hhead : Same (c :: log') (log' ++ [c]) := same_cons_comm (hdisjoint c (.head _))
    refine (htail.append_left [c]).trans ?_
    simpa using hhead.append_right log

theorem replay_map_add {items : List α} (hnodup : items.Nodup) (habsent : ∀ a ∈ items, a ∉ mirror) :
    replay mirror (items.map .add) = some (mirror ∪ items.toFinset) := by
  induction items generalizing mirror with
  | nil => simp
  | cons a items ih =>
    rw [nodup_cons] at hnodup
    have hrest : ∀ b ∈ items, b ∉ insert a mirror := by
      intro b hb hmem
      rcases Finset.mem_insert.1 hmem with rfl | hmem
      · exact hnodup.1 hb
      · exact habsent b (.tail _ hb) hmem
    rw [map_cons, replay_cons, Change.apply, if_neg (habsent a (.head _)), Option.bind_some, ih _ hnodup.2 hrest]
    congr 1
    ext b
    simp only [Finset.mem_union, Finset.mem_insert, mem_toFinset, mem_cons]
    tauto

theorem replay_map_remove {items : List α} (hnodup : items.Nodup) (hpresent : ∀ a ∈ items, a ∈ mirror) :
    replay mirror (items.map .remove) = some (mirror \ items.toFinset) := by
  induction items generalizing mirror with
  | nil => simp
  | cons a items ih =>
    rw [nodup_cons] at hnodup
    have hrest : ∀ b ∈ items, b ∈ mirror.erase a := by
      intro b hb
      rw [Finset.mem_erase]
      exact ⟨fun heq => hnodup.1 (heq ▸ hb), hpresent b (.tail _ hb)⟩
    rw [map_cons, replay_cons, Change.apply_remove_of_mem (hpresent a (.head _)), Option.bind_some, ih _ hnodup.2 hrest]
    congr 1
    ext b
    simp only [Finset.mem_sdiff, Finset.mem_erase, mem_toFinset, mem_cons]
    tauto

end ChangeLog

end TrtLlm
