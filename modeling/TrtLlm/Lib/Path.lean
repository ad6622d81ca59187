import Mathlib

/-!
# Runs of a labelled transition relation

A run is a finite sequence of labelled steps. What one step preserves, a whole run preserves; that is
the only induction a safety proof about runs needs, so it is done here once.
-/

namespace TrtLlm

variable {σ ℓ : Type*} {step : σ → ℓ → σ → Prop}

/-- `Path step s labels t`: the steps named by `labels` lead from `s` to `t`. -/
inductive Path (step : σ → ℓ → σ → Prop) : σ → List ℓ → σ → Prop where
  | nil (s : σ) : Path step s [] s
  | cons {s t u : σ} {l : ℓ} {ls : List ℓ} (head : step s l t) (tail : Path step t ls u) :
      Path step s (l :: ls) u

namespace Path

/-- The invariant rule: an invariant of every step with an `allowed` label holds at the end of every run with such
labels, and `emits` holds of every label on the way. -/
theorem invariant_of_forall {inv : σ → Prop} {allowed emits : ℓ → Prop}
    (hstep : ∀ s l t, inv s → allowed l → step s l t → inv t ∧ emits l) {s t : σ} {ls : List ℓ}
    (hpath : Path step s ls t) (hinit : inv s) (hallowed : ∀ l ∈ ls, allowed l) : inv t ∧ ∀ l ∈ ls, emits l := by
  induction hpath with
  | nil s => exact ⟨hinit, by simp⟩
  | cons head tail ih =>
    obtain ⟨hnext, hemit⟩ := hstep _ _ _ hinit (hallowed _ (by simp)) head
    obtain ⟨hend, hrest⟩ := ih hnext (List.forall_mem_cons.1 hallowed).2
    exact ⟨hend, List.forall_mem_cons.2 ⟨hemit, hrest⟩⟩

theorem invariant {inv : σ → Prop} (hstep : ∀ s l t, inv s → step s l t → inv t)
    {s t : σ} {ls : List ℓ} (hpath : Path step s ls t) (hinit : inv s) : inv t :=
  have hstep' : ∀ s l t, inv s → True → step s l t → inv t ∧ True := fun s l t hs _ h => ⟨hstep s l t hs h, trivial⟩
  (invariant_of_forall hstep' hpath hinit fun _ _ => trivial).1

end Path

/-- A state with operations: which of them a caller may make, and what each does and returns. -/
structure Machine (σ α β : Type*) where
  admissible : σ → α → Prop
  exec : σ → α → σ × β

namespace Machine

variable {σ α β : Type*} (m : Machine σ α β)

/-- An admissible call, labelled with the operation and what it returned. -/
def Step (s : σ) (call : α × β) (t : σ) : Prop := m.admissible s call.1 ∧ m.exec s call.1 = (t, call.2)

/-- The calls of a sequence of operations, with their results. -/
def calls (s : σ) : List α → List (α × β)
  | [] => []
  | op :: ops => (op, (m.exec s op).2) :: calls (m.exec s op).1 ops

def after (s : σ) : List α → σ
  | [] => s
  | op :: ops => after (m.exec s op).1 ops

/-- Every operation of the sequence is admissible when it is made. -/
def Admits (s : σ) : List α → Prop
  | [] => True
  | op :: ops => m.admissible s op ∧ Admits (m.exec s op).1 ops

instance decidableAdmits [∀ s op, Decidable (m.admissible s op)] (s : σ) (ops : List α) :
    Decidable (m.Admits s ops) :=
  match ops with
  | [] => instDecidableTrue
  | op :: ops =>
    have := decidableAdmits (m.exec s op).1 ops
    inferInstanceAs (Decidable (_ ∧ _))

variable {m}

theorem Admits.path {s : σ} {ops : List α} (h : m.Admits s ops) : Path m.Step s (m.calls s ops) (m.after s ops) := by
  induction ops generalizing s with
  | nil => exact .nil s
  | cons op ops ih => exact .cons ⟨h.1, rfl⟩ (ih h.2)

end Machine

end TrtLlm
