import Mathlib

/-!
# Searching a text that arrives in pieces

The first occurrence of a tag in a text, and what a reader may release who has seen only the beginning of the text: all
but a suffix that could still grow into the tag. If the first character of the tag occurs nowhere else in it, that
suffix starts at the last such character.
-/

namespace TrtLlm.TextSearch

open List

variable {α : Type*}

/-- `held` contains every suffix of `text` that could still grow into `tag`. -/
structure Withheld (tag released held : List α) : Prop where
  absent : ¬ tag <:+: released ++ held
  longest : ∀ rest, rest <:+ released ++ held → rest <+: tag → rest.length ≤ held.length

variable {tag a b : List α}

theorem Withheld.occurrence {released held : List α} (h : Withheld tag released held) {more : List α}
    (hab : released ++ (held ++ more) = a ++ (tag ++ b)) : ∃ a', a = released ++ a' := by
  rcases append_eq_append_iff.1 hab with ⟨a', ha, -⟩ | ⟨c, hc, htag⟩
  · exact ⟨a', ha⟩
  have hsuffix : c ++ held <:+ released ++ held := ⟨a, by rw [hc, append_assoc]⟩
  have hstart : c ++ held <+: tag ++ b := ⟨more, by rw [append_assoc]; exact htag.symm⟩
  rcases prefix_or_prefix_of_prefix hstart (prefix_append tag b) with hgrow | hin
  · have hlen := h.longest _ hsuffix hgrow
    have hnil : c = [] := by
      rw [length_append] at hlen
      exact length_eq_zero_iff.1 (by omega)
    exact ⟨[], by rw [hc, hnil]; simp⟩
  · exact absurd (hin.isInfix.trans hsuffix.isInfix) h.absent

/-- A tag that starts with `mark` and contains no other one. -/
def Marked (mark : α) (tag : List α) : Prop := tag.head? = some mark ∧ mark ∉ tag.tail

namespace Marked

variable {mark : α} {tag text : List α}

theorem cons {tail : List α} (h : mark ∉ tail) : Marked mark (mark :: tail) := ⟨rfl, h⟩

variable (h : Marked mark tag)

include h

theorem eq_cons : ∃ tail, tag = mark :: tail ∧ mark ∉ tail := by
  cases tag with
  | nil => exact absurd h.1 (by simp)
  | cons c tail => exact ⟨tail, by simpa using h.1, h.2⟩

theorem eq_nil_of_isPrefix (hpre : a ++ mark :: b <+: tag) : a = [] := by
  obtain ⟨tail, rfl, htail⟩ := h.eq_cons
  cases a with
  | nil => rfl
  | cons c a =>
    rw [cons_append, cons_prefix_cons] at hpre
    exact absurd (hpre.2.subset (by simp)) htail

theorem of_prefix (hpre : text <+: tag) (hne : text ≠ []) : Marked mark text := by
  obtain ⟨tail, rfl, htail⟩ := h.eq_cons
  cases text with
  | nil => exact absurd rfl hne
  | cons c text =>
    rw [cons_prefix_cons] at hpre
    obtain ⟨rfl, hpre⟩ := hpre
    exact cons fun hmem => htail (hpre.subset hmem)

theorem prefix_append_cons (hpre : tag <+: a ++ mark :: b) : tag <+: a ∨ a = [] := by
  rcases prefix_or_prefix_of_prefix hpre (prefix_append a (mark :: b)) with hin | hout
  · exact .inl hin
  obtain ⟨c, rfl⟩ := hout
  rw [prefix_append_right_inj] at hpre
  cases c with
  | nil => exact .inl (by simp)
  | cons x c =>
    obtain ⟨rfl, -⟩ := cons_prefix_cons.1 hpre
    exact .inr (h.eq_nil_of_isPrefix prefix_rfl)

theorem infix_of_notMem (ha : mark ∉ a) (hin : tag <:+: a ++ b) : tag <:+: b := by
  induction a with
  | nil => exact hin
  | cons c a ih =>
    rcases infix_cons_iff.1 hin with hpre | hin
    · obtain ⟨tail, rfl, -⟩ := h.eq_cons
      exact absurd (by simp [(cons_prefix_cons.1 hpre).1]) ha
    · exact ih (fun hmem => ha (mem_cons_of_mem c hmem)) hin

theorem le_of_occurrence {x y : List α} (ha : ¬ tag <:+: a) (hxy : a ++ mark :: b = x ++ (tag ++ y)) : a.length ≤ x.length := by
  rcases append_eq_append_iff.1 hxy with ⟨c, rfl, -⟩ | ⟨c, rfl, hc⟩
  · simp
  · rcases h.prefix_append_cons (hc ▸ prefix_append tag y) with hin | rfl
    · exact absurd (hin.isInfix.trans (suffix_append x c).isInfix) ha
    · simp

theorem infix_append_cons (hin : tag <:+: a ++ mark :: b) : tag <:+: a ∨ tag <:+: mark :: b := by
  obtain ⟨x, y, hxy⟩ := hin
  rw [append_assoc] at hxy
  rcases append_eq_append_iff.1 hxy with ⟨c, rfl, hc⟩ | ⟨c, -, hc⟩
  · rcases h.prefix_append_cons (hc ▸ prefix_append tag y) with hpre | rfl
    · exact .inl (hpre.isInfix.trans (suffix_append x c).isInfix)
    · exact .inr ⟨[], y, by simpa using hc⟩
  · exact .inr ⟨c, y, by rw [hc, append_assoc]⟩

end Marked

section Search

variable [DecidableEq α]

/-- Where the first occurrence of `tag` starts. -/
def find (tag : List α) : List α → Option ℕ
  | [] => if tag = [] then some 0 else none
  | c :: text => if tag <+: c :: text then some 0 else (find tag text).map (· + 1)

variable {text : List α}

theorem find_eq_none : find tag text = none ↔ ¬ tag <:+: text := by
  induction text with
  | nil => by_cases h : tag = [] <;> simp [find]
  | cons c text ih =>
    by_cases h : tag <+: c :: text
    · simp [find, h, h.isInfix]
    · simp [find, h, infix_cons_iff, ih]

theorem find_eq_some {i : ℕ} :
    find tag text = some i ↔ (∃ a b, text = a ++ (tag ++ b) ∧ a.length = i) ∧ ∀ a b, text = a ++ (tag ++ b) → i ≤ a.length := by
  induction text generalizing i with
  | nil => by_cases h : tag = [] <;> simp [find, h, eq_comm]
  | cons c text ih =>
    by_cases h : tag <+: c :: text
    · obtain ⟨b, hb⟩ := h
      simp only [find, show tag <+: c :: text from ⟨b, hb⟩, if_true, Option.some.injEq]
      constructor
      · rintro rfl
        exact ⟨⟨[], b, hb.symm, rfl⟩, fun _ _ _ => Nat.zero_le _⟩
      · intro hi
        exact (Nat.le_zero.1 (hi.2 [] b hb.symm)).symm
    · have hcons : ∀ a b, c :: text = a ++ (tag ++ b) → ∃ a', a = c :: a' ∧ text = a' ++ (tag ++ b) := by
        intro a b hab
        cases a with
        | nil => exact absurd ⟨b, hab.symm⟩ h
        | cons x a' =>
          rw [cons_append, cons.injEq] at hab
          exact ⟨a', by rw [hab.1], hab.2⟩
      simp only [find, h, if_false, Option.map_eq_some_iff]
      constructor
      · rintro ⟨j, hj, rfl⟩
        obtain ⟨⟨a, b, htext, hlen⟩, hfirst⟩ := ih.1 hj
        refine ⟨⟨c :: a, b, by simp [htext], by simp [hlen]⟩, fun a' b' hab => ?_⟩
        obtain ⟨a'', rfl, htext'⟩ := hcons a' b' hab
        simpa using hfirst a'' b' htext'
      · intro hi
        obtain ⟨⟨a, b, hab, hlen⟩, hfirst⟩ := hi
        obtain ⟨a', rfl, htext⟩ := hcons a b hab
        refine ⟨a'.length, ih.2 ⟨⟨a', b, htext, rfl⟩, fun x y hxy => ?_⟩, hlen⟩
        have hle := hfirst (c :: x) y (by simp [hxy])
        simp only [length_cons] at hle hlen
        omega

theorem find_le {i : ℕ} (h : find tag text = some i) : i + tag.length ≤ text.length := by
  obtain ⟨⟨a, b, rfl, rfl⟩, -⟩ := find_eq_some.1 h
  simp

theorem find_append_right {i : ℕ} (h : find tag text = some i) (more : List α) : find tag (text ++ more) = some i := by
  obtain ⟨⟨a, b, rfl, hlen⟩, hfirst⟩ := find_eq_some.1 h
  refine find_eq_some.2 ⟨⟨a, b ++ more, by simp, hlen⟩, fun a' b' hab => ?_⟩
  by_contra hlt
  have hlong : (a' ++ tag).length ≤ (a ++ (tag ++ b)).length := by
    simp only [length_append]
    omega
  have hpre : a' ++ tag <+: a ++ (tag ++ b) := prefix_of_prefix_length_le ⟨b', by simp [hab]⟩ (prefix_append _ more) hlong
  obtain ⟨c, hc⟩ := hpre
  exact hlt (hfirst a' c (by rw [← hc, append_assoc]))

theorem Withheld.find_append {released held : List α} (h : Withheld tag released held) (more : List α) :
    find tag (released ++ (held ++ more)) = (find tag (held ++ more)).map (released.length + ·) := by
  cases hfind : find tag (held ++ more) with
  | none =>
    rw [find_eq_none] at hfind
    refine find_eq_none.2 fun hin => hfind ?_
    obtain ⟨a, b, hab⟩ := hin
    obtain ⟨a', rfl⟩ := h.occurrence (by rw [← hab, append_assoc])
    refine ⟨a', b, (append_right_inj released).1 ?_⟩
    rw [← hab]
    simp
  | some i =>
    obtain ⟨⟨a, b, htext, rfl⟩, hfirst⟩ := find_eq_some.1 hfind
    refine find_eq_some.2 ⟨⟨released ++ a, b, by simp [htext], by simp⟩, fun a' b' hab => ?_⟩
    obtain ⟨a'', rfl⟩ := h.occurrence hab
    rw [append_assoc] at hab
    have hle := hfirst a'' b' (append_cancel_left hab)
    simp only [length_append]
    omega

theorem exists_first (htag : tag ≠ []) (h : tag <:+: text) : ∃ a b, text = a ++ (tag ++ b) ∧ ¬ tag <:+: a := by
  cases hfind : find tag text with
  | none => exact absurd h (find_eq_none.1 hfind)
  | some i =>
    obtain ⟨⟨a, b, htext, rfl⟩, hfirst⟩ := find_eq_some.1 hfind
    refine ⟨a, b, htext, ?_⟩
    rintro ⟨x, y, rfl⟩
    have hle := hfirst x (y ++ (tag ++ b)) (by simp [htext])
    simp only [length_append] at hle
    exact htag (length_eq_zero_iff.1 (by omega))

instance (mark : α) (tag : List α) : Decidable (Marked mark tag) :=
  inferInstanceAs (Decidable (tag.head? = some mark ∧ mark ∉ tag.tail))

theorem Marked.find_append {mark : α} (h : Marked mark tag) (ha : ¬ tag <:+: a) : find tag (a ++ (tag ++ b)) = some a.length := by
  obtain ⟨tail, htag, -⟩ := h.eq_cons
  refine find_eq_some.2 ⟨⟨a, b, rfl, rfl⟩, fun a' b' hab => ?_⟩
  exact h.le_of_occurrence ha (by rw [← hab, ← cons_append, ← htag])

def rfind (c : α) : List α → Option ℕ
  | [] => none
  | x :: text => ((rfind c text).map (· + 1)).or (if x = c then some 0 else none)

theorem rfind_eq_none {c : α} : rfind c text = none ↔ c ∉ text := by
  induction text with
  | nil => simp [rfind]
  | cons x text ih => by_cases hx : x = c <;> simp [rfind, ih, hx, Ne.symm]

theorem rfind_append {c : α} (a : List α) (hb : c ∉ b) : rfind c (a ++ c :: b) = some a.length := by
  induction a with
  | nil => simp [rfind, rfind_eq_none.2 hb]
  | cons x a ih => simp [rfind, ih]

/-- A text split where its last marked suffix starts, if that suffix can still grow into one of the tags. -/
def withhold (mark : α) (tags : List (List α)) (text : List α) : List α × List α :=
  match rfind mark text with
  | none => (text, [])
  | some i => if ∃ tag ∈ tags, text.drop i <+: tag then (text.take i, text.drop i) else (text, [])

section Withhold

variable {mark : α} {tags : List (List α)}

theorem withhold_of_notMem (h : mark ∉ text) : withhold mark tags text = (text, []) := by
  simp [withhold, rfind_eq_none.2 h]

theorem withhold_append (hb : Marked mark b) :
    withhold mark tags (a ++ b) = if ∃ tag ∈ tags, b <+: tag then (a, b) else (a ++ b, []) := by
  obtain ⟨tail, rfl, htail⟩ := hb.eq_cons
  simp [withhold, rfind_append a htail]

theorem withhold_eq (mark : α) (tags : List (List α)) (text : List α) : (withhold mark tags text).1 ++
    (withhold mark tags text).2 = text := by
  unfold withhold
  split
  · simp
  · split <;> simp

theorem withhold_suffix (mark : α) (tags : List (List α)) (text rest : List α) :
    (withhold mark tags text).2 ++ rest <:+ text ++ rest :=
  ⟨(withhold mark tags text).1, by rw [← append_assoc, withhold_eq]⟩

theorem withhold_grows (mark : α) (tags : List (List α)) (text : List α) :
    (withhold mark tags text).2 = [] ∨ ∃ tag ∈ tags, (withhold mark tags text).2 <+: tag := by
  unfold withhold
  split
  · simp
  · split <;> simp_all

variable (htag : tag ∈ tags) (hmarked : Marked mark tag)

include htag hmarked

theorem withhold_longest {rest : List α} (hsuffix : rest <:+ text) (hgrow : rest <+: tag) :
    rest.length ≤ (withhold mark tags text).2.length := by
  by_cases hnil : rest = []
  · simp [hnil]
  · obtain ⟨a, rfl⟩ := hsuffix
    rw [withhold_append (hmarked.of_prefix hgrow hnil), if_pos ⟨tag, htag, hgrow⟩]

theorem withheld_withhold (habsent : ¬ tag <:+: text) : Withheld tag (withhold mark tags text).1 (withhold mark tags text).2 := by
  refine ⟨by rwa [withhold_eq], fun rest hsuffix hgrow => ?_⟩
  rw [withhold_eq] at hsuffix
  exact withhold_longest htag hmarked hsuffix hgrow

theorem suffix_withhold {more : List α} (hsuffix : tag <:+ text ++ more) : tag <:+ (withhold mark tags text).2 ++ more := by
  rcases suffix_or_suffix_of_suffix hsuffix (suffix_append text more) with h | ⟨c, rfl⟩
  · exact h.trans (suffix_append _ _)
  obtain ⟨x, hx⟩ := hsuffix
  rw [← append_assoc] at hx
  have hc : c <:+ text := ⟨x, append_cancel_right hx⟩
  have hlen := withhold_longest htag hmarked hc (prefix_append c more)
  have hheld : (withhold mark tags text).2 <:+ text := ⟨_, withhold_eq mark tags text⟩
  obtain ⟨d, hd⟩ := suffix_of_suffix_length_le hc hheld hlen
  exact ⟨d, by rw [← hd, append_assoc]⟩

end Withhold
end Search

end TrtLlm.TextSearch
