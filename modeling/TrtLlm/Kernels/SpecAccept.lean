import Mathlib

/-!
# Acceptance of draft tokens

`spec_accept.comp` in exact arithmetic, for one row of the batch. A draft token is accepted with probability
`min 1 (p / q)`, which covers the mass `min p q`; at a rejection the shader writes the whole target distribution, not
what is missing of it. What a row emits is an integral over the coin of the position.
-/

namespace TrtLlm.Kernels

open Finset Function MeasureTheory Real

variable {V : ℕ}

noncomputable def softmax (l : Fin V → ℝ) (x : Fin V) : ℝ := exp (l x) / ∑ i, exp (l i)

noncomputable def maxLogit (l : Fin V → ℝ) : ℝ := (List.ofFn l).foldl (fun mx x => if x > mx then x else mx) (-1.0e30)

noncomputable def logProb (l : Fin V → ℝ) (tok : Fin V) : ℝ := (l tok - maxLogit l) - log (∑ i, exp (l i - maxLogit l))

/-- A row of the buffers, by position; a draft token is `none` where the entry is negative. -/
structure SpecRow (V : ℕ) where
  draftLen : ℕ
  temperature : ℝ
  targetLogits : ℕ → Fin V → ℝ
  draftLogits : ℕ → Fin V → ℝ
  rngSamples : ℕ → ℝ
  draftTokens : ℕ → Option (Fin V)

/-- What the shader writes for a row; `none` among the tokens is the entry -1. -/
structure SpecOutput (V : ℕ) where
  acceptCount : ℕ
  acceptedTokens : ℕ → Option (Fin V)
  resampleProbs : Fin V → ℝ

namespace SpecRow

variable (a : SpecRow V) (t : ℕ)

noncomputable def acceptProb (tok : Fin V) : ℝ :=
  let scale := 1 / a.temperature
  let r := exp (logProb (a.targetLogits t) tok * scale - logProb (a.draftLogits t) tok * scale)
  if r > 1 then 1 else r

/-- The loop over the draft tokens, with `n` positions left and all before `t` accepted: the number of accepted tokens,
and whether one was rejected. -/
noncomputable def walk : ℕ → ℕ → ℕ × Bool
  | 0, t => (t, false)
  | n + 1, t =>
    match a.draftTokens t with
    | none => (t, false)
    | some tok => if a.rngSamples t < a.acceptProb t tok then walk n (t + 1) else (t, true)

noncomputable def resample (x : Fin V) : ℝ :=
  let l := a.targetLogits t
  let scale := 1 / a.temperature
  let sum := ∑ i, exp ((l i - maxLogit l) * scale)
  exp ((l x - maxLogit l) * scale) * if sum > 0 then 1 / sum else 0

noncomputable def main : SpecOutput V :=
  let accepted := (a.walk a.draftLen 0).1
  if (a.walk a.draftLen 0).2 ∨ accepted < a.draftLen then
    ⟨accepted, fun i => if i < accepted then a.draftTokens i else none, a.resample accepted⟩
  else
    ⟨accepted, a.draftTokens, fun _ => 0⟩

/-- The row with another draft token and another coin at position `t`. -/
def draw (tok : Fin V) (u : ℝ) : SpecRow V :=
  { a with draftTokens := update a.draftTokens t (some tok), rngSamples := update a.rngSamples t u }

/-- The probability that `x` comes out at position `t`: as the draft token, or in a draw from what was written. -/
noncomputable def emitted (o : SpecOutput V) (t : ℕ) (x : Fin V) : ℝ :=
  if t < o.acceptCount then if o.acceptedTokens t = some x then 1 else 0 else o.resampleProbs x

/-- The same over a draft token from the draft distribution and a uniform coin. -/
noncomputable def emitProb (x : Fin V) : ℝ :=
  ∑ tok, softmax (a.draftLogits t) tok * ∫ u in Set.Ico (0 : ℝ) 1, emitted (a.draw t tok u).main t x

def AcceptedBefore : Prop := ∀ i < t, ∃ tok, a.draftTokens i = some tok ∧ a.rngSamples i < a.acceptProb i tok

end SpecRow

theorem softmax_shift (l : Fin V → ℝ) (m : ℝ) (x : Fin V) : exp (l x - m) / ∑ i, exp (l i - m) = softmax l x := by
  simp only [exp_sub, ← sum_div]
  exact div_div_div_cancel_right₀ (exp_pos m).ne' _ _

theorem sum_exp_pos (l : Fin V → ℝ) (x : Fin V) : 0 < ∑ i, exp (l i) := sum_pos (fun i _ => exp_pos (l i)) ⟨x, mem_univ x⟩

theorem softmax_pos (l : Fin V → ℝ) (x : Fin V) : 0 < softmax l x := div_pos (exp_pos _) (sum_exp_pos l x)

theorem sum_softmax (l : Fin V → ℝ) (x : Fin V) : ∑ i, softmax l i = 1 := by
  unfold softmax
  rw [← sum_div, div_self (sum_exp_pos l x).ne']

theorem exp_logProb (l : Fin V → ℝ) (tok : Fin V) : exp (logProb l tok) = softmax l tok := by
  rw [logProb, exp_sub, exp_log (sum_exp_pos (fun i => l i - maxLogit l) tok), softmax_shift]

namespace SpecRow

variable {a : SpecRow V} {t : ℕ} (htemp : a.temperature = 1)

include htemp

theorem mul_acceptProb (tok : Fin V) : softmax (a.draftLogits t) tok * a.acceptProb t tok =
    min (softmax (a.draftLogits t) tok) (softmax (a.targetLogits t) tok) := by
  have hq := softmax_pos (a.draftLogits t) tok
  simp only [acceptProb, htemp, div_one, mul_one, exp_sub, exp_logProb, one_lt_div hq]
  split
  · rename_i hlt
    rw [mul_one, min_eq_left hlt.le]
  · rename_i hle
    rw [mul_div_cancel₀ _ hq.ne', min_eq_right (not_lt.1 hle)]

theorem resample_eq (x : Fin V) : a.resample t x = softmax (a.targetLogits t) x := by
  have hpos := sum_exp_pos (fun i => a.targetLogits t i - maxLogit (a.targetLogits t)) x
  simp only [resample, htemp, div_one, mul_one, if_pos hpos]
  rw [mul_one_div, softmax_shift]

omit htemp

theorem acceptProb_mem (tok : Fin V) : a.acceptProb t tok ∈ Set.Icc 0 1 := by
  unfold acceptProb
  dsimp only
  split
  · exact ⟨zero_le_one, le_rfl⟩
  · rename_i hle
    exact ⟨(exp_pos _).le, not_lt.1 hle⟩

theorem acceptedBefore_zero : a.AcceptedBefore 0 := fun i hi => absurd hi i.not_lt_zero

theorem le_walk (a : SpecRow V) (n t : ℕ) : t ≤ (a.walk n t).1 := by
  induction n generalizing t with
  | zero => exact le_rfl
  | succ n ih =>
    rw [walk]
    split
    · exact le_rfl
    · split
      · exact (Nat.le_succ t).trans (ih (t + 1))
      · exact le_rfl

theorem walk_of_acceptedBefore (h : a.AcceptedBefore t) (n : ℕ) : a.walk (t + n) 0 = a.walk n t := by
  induction t generalizing n with
  | zero => rw [Nat.zero_add]
  | succ t ih =>
    obtain ⟨tok, htok, hcoin⟩ := h t t.lt_succ_self
    rw [Nat.succ_add_eq_add_succ, ih (fun i hi => h i (hi.trans t.lt_succ_self)), walk, htok]
    exact if_pos hcoin

/-- What comes out at a position whose coin is `u`. -/
theorem emitted_draw (htemp : a.temperature = 1) (ht : t < a.draftLen) (h : a.AcceptedBefore t) (tok x : Fin V)
    (u : ℝ) : emitted (a.draw t tok u).main t x =
      if u < a.acceptProb t tok then if tok = x then 1 else 0 else softmax (a.targetLogits t) x := by
  have hbefore : (a.draw t tok u).AcceptedBefore t := by
    intro i hi
    simp only [draw, update_of_ne hi.ne]
    exact h i hi
  have hcoin : (a.draw t tok u).rngSamples t = u := update_self ..
  have htok : (a.draw t tok u).draftTokens t = some tok := update_self ..
  obtain ⟨n, hlen⟩ := Nat.exists_eq_add_of_lt ht
  have hwalk : (a.draw t tok u).walk a.draftLen 0 =
      if u < a.acceptProb t tok then (a.draw t tok u).walk n (t + 1) else (t, true) := by
    rw [hlen, Nat.add_assoc, walk_of_acceptedBefore hbefore, walk]
    simp only [htok, hcoin]
    rfl
  rw [main, show (a.draw t tok u).draftLen = a.draftLen from rfl, hwalk]
  by_cases hu : u < a.acceptProb t tok
  · have hle := le_walk (a.draw t tok u) n (t + 1)
    simp only [if_pos hu, emitted]
    split <;> simp [Nat.lt_of_succ_le hle, htok]
  · simp only [if_neg hu, true_or, if_true, emitted, lt_irrefl]
    exact resample_eq htemp x

theorem integral_coin {r : ℝ} (hr : r ∈ Set.Icc 0 1) (A B : ℝ) :
    ∫ u in Set.Ico (0 : ℝ) 1, (if u < r then A else B) = r * A + (1 - r) * B := by
  have hsum : (fun u => if u < r then A else B) =
      fun u => (Set.Iio r).indicator (fun _ => A) u + (Set.Ici r).indicator (fun _ => B) u := by
    ext u
    by_cases hu : u < r <;> simp [hu, not_lt.1]
  rw [hsum, integral_add, setIntegral_indicator measurableSet_Iio, setIntegral_indicator measurableSet_Ici,
    Set.Ico_inter_Iio]
  · simp [hr.1, hr.2]
  · exact (integrable_const A).indicator measurableSet_Iio
  · exact (integrable_const B).indicator measurableSet_Ici

/-- The accepted mass, and the target distribution for all that was rejected. -/
theorem emitProb_eq (htemp : a.temperature = 1) (ht : t < a.draftLen) (h : a.AcceptedBefore t) (x : Fin V) :
    a.emitProb t x = min (softmax (a.draftLogits t) x) (softmax (a.targetLogits t) x) +
      (1 - ∑ y, min (softmax (a.draftLogits t) y) (softmax (a.targetLogits t) y)) * softmax (a.targetLogits t) x := by
  simp only [emitProb, emitted_draw htemp ht h, integral_coin (acceptProb_mem _), mul_add, ← mul_assoc, mul_sub,
    mul_one, mul_acceptProb htemp, mul_ite, mul_zero, sum_add_distrib, ← sum_mul, sum_sub_distrib,
    sum_softmax _ x, sum_ite_eq', mem_univ, if_true]

end SpecRow

/-- Filling up with the whole of `p` gives `p` only where nothing has to be filled up. -/
theorem fill_eq_iff {ι : Type*} [Fintype ι] {p q : ι → ℝ} (hp : ∀ x, 0 < p x) (hsum : ∑ x, p x = 1)
    (hq : ∑ x, q x = 1) : (∀ x, min (q x) (p x) + (1 - ∑ y, min (q y) (p y)) * p x = p x) ↔ p = q := by
  constructor
  · intro h
    set α := ∑ y, min (q y) (p y)
    have hmin (x : ι) : min (q x) (p x) = α * p x := by linarith [h x]
    have hle (x : ι) : p x ≤ q x := by
      by_contra! hlt
      -- below `p` somewhere, the minimum is a proper fraction of `p` and so `q` everywhere
      have hα : α < 1 := by
        have hx := hmin x
        rw [min_eq_left hlt.le] at hx
        exact (mul_lt_iff_lt_one_left (hp x)).1 (hx ▸ hlt)
      have hmin' (y : ι) : min (q y) (p y) = q y := by
        refine (min_choice (q y) (p y)).resolve_right fun hy => ?_
        exact ((mul_lt_iff_lt_one_left (hp y)).2 hα).ne ((hmin y).symm.trans hy)
      exact hα.ne ((sum_congr rfl fun y _ => hmin' y).trans hq)
    ext x
    exact (sum_eq_sum_iff_of_le fun x _ => hle x).1 (hsum.trans hq.symm) x (mem_univ x)
  · rintro rfl x
    simp [hsum]

namespace SpecRow

variable {a : SpecRow V} {t : ℕ}

theorem fill_softmax_iff (l m : Fin V → ℝ) : (∀ x, min (softmax m x) (softmax l x) +
    (1 - ∑ y, min (softmax m y) (softmax l y)) * softmax l x = softmax l x) ↔ softmax l = softmax m := by
  cases isEmpty_or_nonempty (Fin V) with
  | inl _ => exact ⟨fun _ => funext isEmptyElim, fun _ => isEmptyElim⟩
  | inr hV => exact hV.elim fun x => fill_eq_iff (softmax_pos l) (sum_softmax l x) (sum_softmax m x)

/-- At temperature 1, what a row emits after accepted tokens has the target distribution exactly if the draft
distribution at that position is it. -/
theorem emits_target_iff (htemp : a.temperature = 1) (ht : t < a.draftLen) (h : a.AcceptedBefore t) :
    (∀ x, a.emitProb t x = softmax (a.targetLogits t) x) ↔ softmax (a.targetLogits t) = softmax (a.draftLogits t) := by
  simp only [emitProb_eq htemp ht h]
  exact fill_softmax_iff ..

/-- One draft token over two words, between which the target distribution is even. -/
def evenTarget (draft : Fin 2 → ℝ) : SpecRow 2 := ⟨1, 1, fun _ _ => 0, fun _ => draft, fun _ => 0, fun _ => some 0⟩

theorem emits_target_iff_evenDraft : (evenTarget 0).temperature = 1 ∧
    ∀ x, (evenTarget 0).emitProb 0 x = softmax ((evenTarget 0).targetLogits 0) x :=
  ⟨rfl, (emits_target_iff rfl Nat.one_pos acceptedBefore_zero).2 rfl⟩

/-- A draft distribution of three quarters and one quarter. -/
theorem evenTarget_not_emitted :
    ¬ ∀ x, (evenTarget ![log 3, 0]).emitProb 0 x = softmax ((evenTarget ![log 3, 0]).targetLogits 0) x := by
  intro h
  simp only [emitProb_eq (a := evenTarget ![log 3, 0]) rfl Nat.one_pos acceptedBefore_zero] at h
  have heq := congrFun ((fill_softmax_iff ..).1 h) 0
  norm_num [softmax, evenTarget, exp_log] at heq

end SpecRow

end TrtLlm.Kernels
