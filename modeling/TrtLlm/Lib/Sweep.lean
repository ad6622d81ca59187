import Mathlib

/-!
# Sweeps over a list of records

A sweep visits the elements of a list in order, threads an accumulator through and replaces every element it visits; it
stops at the first step that raises. `sweep_spec` is the rule for a loop with a budget: when every step succeeds and
moves the accumulator by as much as the cost of the element, so does the whole sweep.
-/

namespace TrtLlm

variable {ε σ α : Type*} {f g : σ → α → Except ε (σ × α)}

def sweep (f : σ → α → Except ε (σ × α)) : σ → List α → Except ε (σ × List α)
  | s, [] => .ok (s, [])
  | s, a :: as =>
    match f s a with
    | .error e => .error e
    | .ok (t, b) =>
      match sweep f t as with
      | .error e => .error e
      | .ok (u, bs) => .ok (u, b :: bs)

@[simp] theorem sweep_nil (s : σ) : sweep f s [] = .ok (s, []) := rfl

variable {as l m : List α} {R : α → α → Prop} {s s' : σ} {a b : α}

theorem sweep_cons_ok {t u : σ} {bs : List α} (hhead : f s a = .ok (t, b))
    (htail : sweep f t as = .ok (u, bs)) : sweep f s (a :: as) = .ok (u, b :: bs) := by
  simp only [sweep, hhead, htail]

theorem sweep_cons_error {e : ε} (hhead : f s a = .error e) : sweep f s (a :: as) = .error e := by
  simp only [sweep, hhead]

theorem sweep_cons_inv {u : σ} (h : sweep f s (a :: as) = .ok (u, l)) :
    ∃ t b bs, f s a = .ok (t, b) ∧ sweep f t as = .ok (u, bs) ∧ l = b :: bs := by
  cases hhead : f s a with
  | error e => simp [sweep, hhead] at h
  | ok r =>
    obtain ⟨t, b⟩ := r
    cases htail : sweep f t as with
    | error e => simp [sweep, hhead, htail] at h
    | ok r =>
      obtain ⟨v, bs⟩ := r
      simp only [sweep, hhead, htail, Except.ok.injEq, Prod.mk.injEq] at h
      exact ⟨t, b, bs, rfl, by rw [htail, h.1], h.2.symm⟩

/-- The rule for sweeps with a budget: the accumulator keeps `inv`, `rel` relates every element to what replaces it, and
`level` moves with the cost of the element. -/
theorem sweep_spec {M : Type*} [AddCommMonoid M] (inv : σ → Prop) (pre : α → Prop) (rel : α → α → Prop) (level : σ → M)
    (before after : α → M)
    (hstep : ∀ s a, inv s → pre a → ∃ t b, f s a = .ok (t, b) ∧ inv t ∧ rel a b ∧ level t + before a = level s + after b)
    (hinv : inv s) (hpre : ∀ a ∈ l, pre a) :
    ∃ t l', sweep f s l = .ok (t, l') ∧ inv t ∧ List.Forall₂ rel l l' ∧
      level t + (l.map before).sum = level s + (l'.map after).sum := by
  induction l generalizing s with
  | nil => exact ⟨s, [], rfl, hinv, .nil, by simp⟩
  | cons a as ih =>
    obtain ⟨t, b, hhead, ht, hrel, hlevel⟩ := hstep s a hinv (hpre a (by simp))
    obtain ⟨u, bs, htail, hu, hrels, hlevels⟩ := ih ht fun c hc => hpre c (by simp [hc])
    refine ⟨u, b :: bs, sweep_cons_ok hhead htail, hu, .cons hrel hrels, ?_⟩
    rw [List.map_cons, List.sum_cons, List.map_cons, List.sum_cons, add_left_comm, hlevels, ← add_assoc, ← add_assoc,
      ← hlevel, add_comm (before a)]

/-- Two sweeps whose steps agree wherever `inv` and `pre` hold end alike. -/
theorem sweep_congr (inv : σ → Prop) (pre : α → Prop)
    (hstep : ∀ s a, inv s → pre a → f s a = g s a ∧ ∀ t b, f s a = .ok (t, b) → inv t) (hinv : inv s)
    (hpre : ∀ a ∈ l, pre a) : sweep f s l = sweep g s l := by
  induction l generalizing s with
  | nil => rfl
  | cons a as ih =>
    obtain ⟨hsame, hkeep⟩ := hstep s a hinv (hpre a (by simp))
    cases hhead : f s a with
    | error e => rw [sweep_cons_error hhead, sweep_cons_error (hsame ▸ hhead)]
    | ok r =>
      obtain ⟨t, b⟩ := r
      have htail := ih (hkeep t b hhead) fun c hc => hpre c (by simp [hc])
      simp only [sweep, ← hsame, hhead, htail]

/-- Two sweeps of the same list that both succeed and leave the same elements. -/
def SweepsAgree (f g : σ → α → Except ε (σ × α)) (s s' : σ) (l : List α) : Prop :=
  ∃ t t' out, sweep f s l = .ok (t, out) ∧ sweep g s' l = .ok (t', out)

theorem sweepsAgree_cons {t t' : σ} {b' : α} (hf : f s a = .ok (t, b)) (hg : g s' a = .ok (t', b')) :
    SweepsAgree f g s s' (a :: as) ↔ b = b' ∧ SweepsAgree f g t t' as := by
  constructor
  · rintro ⟨u, u', out, hout, hout'⟩
    obtain ⟨v, c, cs, hhead, htail, rfl⟩ := sweep_cons_inv hout
    obtain ⟨v', c', cs', hhead', htail', heq⟩ := sweep_cons_inv hout'
    rw [hf, Except.ok.injEq, Prod.mk.injEq] at hhead
    rw [hg, Except.ok.injEq, Prod.mk.injEq] at hhead'
    rw [List.cons.injEq] at heq
    rw [← hhead.1] at htail
    rw [← hhead'.1, ← heq.2] at htail'
    exact ⟨hhead.2.trans (heq.1.trans hhead'.2.symm), u, u', cs, htail, htail'⟩
  · rintro ⟨rfl, u, u', out, hout, hout'⟩
    exact ⟨u, u', b :: out, sweep_cons_ok hf hout, sweep_cons_ok hg hout'⟩

theorem sweepsAgree_iff_map_snd :
    SweepsAgree f g s s' l ↔ ∃ out, (sweep f s l).map Prod.snd = .ok out ∧ (sweep g s' l).map Prod.snd = .ok out := by
  constructor
  · rintro ⟨t, t', out, hout, hout'⟩
    exact ⟨out, by rw [hout]; rfl, by rw [hout']; rfl⟩
  rintro ⟨out, hout, hout'⟩
  cases hf : sweep f s l with
  | error e => simp [hf, Except.map] at hout
  | ok r =>
    cases hg : sweep g s' l with
    | error e => simp [hg, Except.map] at hout'
    | ok r' =>
      rw [hf] at hout
      rw [hg] at hout'
      exact ⟨r.1, r'.1, out, by rw [hf, ← Except.ok.inj hout], by rw [hg, ← Except.ok.inj hout']⟩

theorem map_eq_of_forall₂ {β : Type*} {F G : α → β} (hFG : ∀ a b, R a b → F a = G b)
    (hR : List.Forall₂ R l m) : l.map F = m.map G := by
  induction hR with
  | nil => rfl
  | cons hab _ ih => simp only [List.map_cons, ih, hFG _ _ hab]

theorem sum_map_eq_of_forall₂ {F G : α → ℤ} (hFG : ∀ a b, R a b → F a = G b) (hR : List.Forall₂ R l m) :
    (l.map F).sum = (m.map G).sum :=
  congrArg List.sum (map_eq_of_forall₂ hFG hR)

theorem exists_of_mem_forall₂ (hR : List.Forall₂ R l m) (hb : b ∈ m) : ∃ a ∈ l, R a b := by
  induction hR with
  | nil => simp at hb
  | cons hab _ ih =>
    rcases List.mem_cons.1 hb with rfl | hb
    · exact ⟨_, by simp, hab⟩
    · obtain ⟨a, ha, hrel⟩ := ih hb
      exact ⟨a, .tail _ ha, hrel⟩

theorem forall_mem_of_forall₂ {P : α → Prop} (hP : ∀ a b, R a b → P b) (hR : List.Forall₂ R l m) : ∀ b ∈ m, P b := by
  intro b hb
  obtain ⟨a, -, hab⟩ := exists_of_mem_forall₂ hR hb
  exact hP a b hab

theorem forall₂_trans {S T : α → α → Prop} (hRS : ∀ a b c, R a b → S b c → T a c) {n : List α}
    (hR : List.Forall₂ R l m) (hS : List.Forall₂ S m n) : List.Forall₂ T l n := by
  induction hR generalizing n with
  | nil => cases hS; exact .nil
  | cons hab _ ih =>
    cases hS with
    | cons hbc hS => exact .cons (hRS _ _ _ hab hbc) (ih hS)

end TrtLlm
