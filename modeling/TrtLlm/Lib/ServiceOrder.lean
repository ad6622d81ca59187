import Mathlib

/-!
# The order in which a queue serves

A queue serves by rank, and within a rank in order of arrival. `Serves` says this of the list in which the waiting items
would be served, against the list in which they arrived. In a sorted list, an item inserted behind its equals is a new
arrival, and items inserted before their equals are put back.
-/

namespace TrtLlm

open List

section OrderedInsert

variable {α : Type*} {r : α → α → Prop} [DecidableRel r] {a : α} {l : List α}

theorem pairwise_orderedInsert (htrans : ∀ a b c, r a b → r b c → r a c) (hl : l.Pairwise r)
    (ha : ∀ b ∈ l, ¬ r a b → r b a) : (l.orderedInsert r a).Pairwise r := by
  induction l with
  | nil => simp
  | cons b l ih =>
    obtain ⟨hb, hl⟩ := pairwise_cons.1 hl
    rw [orderedInsert_cons]
    split
    · rename_i hab
      refine pairwise_cons.2 ⟨?_, pairwise_cons.2 ⟨hb, hl⟩⟩
      exact forall_mem_cons.2 ⟨hab, fun c hc => htrans _ _ _ hab (hb c hc)⟩
    · rename_i hab
      refine pairwise_cons.2 ⟨?_, ih hl fun c hc => ha c (mem_cons_of_mem b hc)⟩
      intro c hc
      rcases (mem_orderedInsert r).1 hc with rfl | hc
      · exact ha b (.head _) hab
      · exact hb c hc

theorem filter_orderedInsert_last (htrans : ∀ a b c, r a b → r b c → r a c) (hl : l.Pairwise r) {q : α → Bool}
    (hlast : q a = true → ∀ b ∈ l, q b = true → ¬ r a b) :
    (l.orderedInsert r a).filter q = (l ++ [a]).filter q := by
  induction l with
  | nil => simp
  | cons b l ih =>
    obtain ⟨hb, hl⟩ := pairwise_cons.1 hl
    rw [orderedInsert_cons]
    split
    · rename_i hab
      cases hqa : q a with
      | false => simp only [filter_append, filter_cons, hqa, filter_nil, append_nil, Bool.false_eq_true, if_false]
      | true =>
        have hnone : (b :: l).filter q = [] := by
          rw [filter_eq_nil_iff]
          intro c hc hqc
          exact hlast hqa c hc hqc (forall_mem_cons.2 ⟨hab, fun c hc => htrans _ _ _ hab (hb c hc)⟩ c hc)
        rw [filter_cons_of_pos hqa, filter_append, hnone]
        simp [hqa]
    · have htail := ih hl fun hqa c hc => hlast hqa c (mem_cons_of_mem b hc)
      rw [cons_append, filter_cons, filter_cons, htail]

theorem filter_orderedInsert_first {q : α → Bool} (hfirst : q a = true → ∀ b ∈ l, q b = true → r a b) :
    (l.orderedInsert r a).filter q = (a :: l).filter q := by
  induction l with
  | nil => simp
  | cons b l ih =>
    rw [orderedInsert_cons]
    split
    · rfl
    rename_i hab
    have htail := ih fun hqa c hc => hfirst hqa c (mem_cons_of_mem b hc)
    cases hqb : q b with
    | false =>
      rw [filter_cons_of_neg (by simp [hqb]), htail]
      simp [filter_cons, hqb]
    | true =>
      have hqa : q a = false := by
        by_contra hqa
        exact hab (hfirst (by simpa using hqa) b (.head _) hqb)
      rw [filter_cons_of_pos hqb, htail]
      simp [hqa, hqb]

end OrderedInsert

section Serves

variable {α β : Type*} [LinearOrder β] {rank : α → β} {arrived order order' : List α}

theorem perm_of_filter_eq (h : ∀ b, order.filter (rank · = b) = order'.filter (rank · = b)) : order.Perm order' := by
  classical
  refine perm_iff_count.2 fun x => ?_
  have hclass := congrArg (count x) (h (rank x))
  rwa [count_filter (by simp), count_filter (by simp)] at hclass

/-- Items are served in `order`: by rank, and those of one rank as they arrived. -/
structure Serves (rank : α → β) (arrived order : List α) : Prop where
  sorted : order.Pairwise fun a b => rank a ≤ rank b
  fifo : ∀ b, (order.filter (rank · = b)).Sublist arrived

namespace Serves

theorem nil : Serves rank arrived [] := ⟨.nil, by simp⟩

theorem sublist (h : Serves rank arrived order) (hsub : order'.Sublist order) : Serves rank arrived order' :=
  ⟨h.sorted.sublist hsub, fun b => (hsub.filter _).trans (h.fifo b)⟩

theorem arrive (h : Serves rank arrived order) {new : List α} (hsorted : order'.Pairwise fun a b => rank a ≤ rank b)
    (hclass : ∀ b, order'.filter (rank · = b) = (order ++ new).filter (rank · = b)) :
    Serves rank (arrived ++ new) order' := by
  refine ⟨hsorted, fun b => ?_⟩
  rw [hclass b, filter_append]
  exact (h.fifo b).append filter_sublist

theorem putBack (h : Serves rank arrived order) {back rest : List α} (hsub : (back ++ rest).Sublist order)
    (hsorted : order'.Pairwise fun a b => rank a ≤ rank b)
    (hclass : ∀ b, order'.filter (rank · = b) = (back ++ rest).filter (rank · = b)) : Serves rank arrived order' := by
  refine ⟨hsorted, fun b => ?_⟩
  rw [hclass b]
  exact (hsub.filter _).trans (h.fifo b)

end Serves

end Serves

end TrtLlm
