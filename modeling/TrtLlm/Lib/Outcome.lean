import Mathlib

/-!
# Outcomes of programs that change a state and may raise

A program of `EStateM ε σ` ends with a value or an exception, and with a state in both cases: what was changed before
the exception stays changed. `Ends` says what holds at either end. The proofs look inside `bind`, `forM` and `onError`
by the rules below only.
-/

namespace TrtLlm

universe u

variable {ε σ α β : Type u}

/-- The run `r` returned with a value and a state that satisfy `Q`, or raised with an exception and a state
that satisfy `E`. -/
def Ends (r : EStateM.Result ε σ α) (Q : α → σ → Prop) (E : ε → σ → Prop) : Prop :=
  match r with
  | .ok a t => Q a t
  | .error e t => E e t

instance (r : EStateM.Result ε σ α) (Q : α → σ → Prop) (E : ε → σ → Prop) [∀ a t, Decidable (Q a t)]
    [∀ e t, Decidable (E e t)] : Decidable (Ends r Q E) :=
  match r with
  | .ok a t => inferInstanceAs (Decidable (Q a t))
  | .error e t => inferInstanceAs (Decidable (E e t))

/-- `try: m  except: cleanup; raise`. An exception of the clean-up itself is ignored, as one raised in a
destructor is. -/
def onError (m : EStateM ε σ α) (cleanup : EStateM ε σ PUnit) : EStateM ε σ α := fun s =>
  match m s with
  | .ok a t => .ok a t
  | .error e t =>
    match cleanup t with
    | .ok _ u => .error e u
    | .error _ u => .error e u

/-- `while body(): pass`, for at most `fuel` rounds. -/
def whileTrue {ε σ : Type} (body : EStateM ε σ Bool) : ℕ → EStateM ε σ PUnit
  | 0 => pure ⟨⟩
  | fuel + 1 => body >>= fun again => if again then whileTrue body fuel else pure ⟨⟩

namespace Ends

variable {m : EStateM ε σ α} {f : α → EStateM ε σ β} {s t : σ} {Q Q' : α → σ → Prop} {E E' : ε → σ → Prop} {a : α}
  {e : ε} {r : EStateM.Result ε σ α}

theorem of_ok (hrun : m s = .ok a t) (hpost : Q a t) : Ends (m s) Q E := by
  rw [hrun]
  exact hpost

theorem of_error (hrun : m s = .error e t) (hpost : E e t) : Ends (m s) Q E := by
  rw [hrun]
  exact hpost

theorem ok (h : Ends (m s) Q E) (hrun : m s = .ok a t) : Q a t := by
  rw [hrun] at h
  exact h

theorem error (h : Ends (m s) Q E) (hrun : m s = .error e t) : E e t := by
  rw [hrun] at h
  exact h

theorem exists_ok (h : Ends r Q fun _ _ => False) : ∃ a t, r = .ok a t ∧ Q a t := by
  cases r with
  | ok a t => exact ⟨a, t, rfl, h⟩
  | error e t => exact h.elim

theorem exists_error (h : Ends r (fun _ _ => False) E) : ∃ e t, r = .error e t ∧ E e t := by
  cases r with
  | ok a t => exact h.elim
  | error e t => exact ⟨e, t, rfl, h⟩

theorem mono (h : Ends r Q E) (hQ : ∀ a t, Q a t → Q' a t) (hE : ∀ e t, E e t → E' e t) : Ends r Q' E' := by
  cases r with
  | ok a t => exact hQ a t h
  | error e t => exact hE e t h

theorem bind {R : β → σ → Prop} (hfirst : Ends (m s) Q E) (hthen : ∀ a t, Q a t → Ends (f a t) R E')
    (hraise : ∀ e t, E e t → E' e t) : Ends ((m >>= f) s) R E' := by
  cases hrun : m s with
  | ok a t =>
    have hnext := hthen a t (hfirst.ok hrun)
    simpa only [Bind.bind, EStateM.bind, hrun] using hnext
  | error e t =>
    have hend := hraise e t (hfirst.error hrun)
    simpa only [Bind.bind, EStateM.bind, hrun, Ends] using hend

/-- The rule of the bounded `while` loop. If `level` falls in every round and the bound is above it, the loop
ends because a round said so. -/
theorem whileTrue {ε σ : Type} {body : EStateM ε σ Bool} (inv : σ → Prop) {done : σ → Prop} {E : ε → σ → Prop}
    (level : σ → ℕ)
    (hround : ∀ s, inv s → Ends (body s) (fun again t => if again then inv t ∧ level t < level s else done t) E)
    {fuel : ℕ} {s : σ} (hfuel : level s < fuel) (hinit : inv s) :
    Ends (whileTrue body fuel s) (fun _ t => done t) E := by
  induction fuel generalizing s with
  | zero => omega
  | succ fuel ih =>
    refine bind (hround s hinit) ?_ fun _ _ he => he
    intro again t ht
    cases again with
    | false => exact ht
    | true => exact ih (by have := ht.2; omega) ht.1

theorem onError {cleanup : EStateM ε σ PUnit} (hrun : Ends (m s) Q E)
    (hclean : ∀ e t, E e t → Ends (cleanup t) (fun _ u => E' e u) fun _ u => E' e u) :
    Ends (onError m cleanup s) Q E' := by
  unfold TrtLlm.onError
  cases hm : m s with
  | ok a t => exact hrun.ok hm
  | error e t =>
    have hend := hclean e t (hrun.error hm)
    cases hc : cleanup t with
    | ok a u =>
      simp only [hc]
      exact hend.ok hc
    | error e' u =>
      simp only [hc]
      exact hend.error hc

theorem discard (h : Ends (m s) Q E) : Ends ((discard m : EStateM ε σ PUnit) s) (fun _ t => ∃ a, Q a t) E := by
  cases hrun : m s with
  | ok a t =>
    have hend := h.ok hrun
    simpa only [Functor.discard, Functor.mapConst, EStateM.map, Function.comp, hrun] using ⟨a, hend⟩
  | error e t =>
    have hend := h.error hrun
    simpa only [Functor.discard, Functor.mapConst, EStateM.map, Function.comp, hrun, Ends] using hend

end Ends

variable {m : EStateM ε σ α} {f : α → EStateM ε σ β} {s t : σ}

theorem bind_ok {a : α} (hrun : m s = .ok a t) : (m >>= f) s = f a t := by
  simp only [Bind.bind, EStateM.bind, hrun]

theorem forM_cons_ok {γ : Type*} {body : γ → EStateM ε σ PUnit} {x : γ} {xs : List γ}
    (hrun : body x s = .ok ⟨⟩ t) : (x :: xs).forM body s = xs.forM body t :=
  bind_ok hrun

theorem bind_eq_ok {u : σ} {b : β} (h : (m >>= f) s = .ok b u) : ∃ a t, m s = .ok a t ∧ f a t = .ok b u := by
  cases hm : m s with
  | ok a t =>
    rw [bind_ok hm] at h
    exact ⟨a, t, rfl, h⟩
  | error e t =>
    simp only [Bind.bind, EStateM.bind, hm] at h
    cases h

theorem bind_error {e : ε} (hrun : m s = .error e t) : (m >>= f) s = .error e t := by
  simp only [Bind.bind, EStateM.bind, hrun]

theorem bind_congr_apply {m' : EStateM ε σ α} {s' : σ} (h : m s = m' s') : (m >>= f) s = (m' >>= f) s' := by
  simp only [Bind.bind, EStateM.bind, h]

theorem get_bind_apply (f : σ → EStateM ε σ β) (s : σ) : ((get : EStateM ε σ σ) >>= f) s = f s s := rfl

theorem modify_bind_apply (g : σ → σ) (f : PUnit → EStateM ε σ β) (s : σ) :
    ((modify g : EStateM ε σ PUnit) >>= f) s = f ⟨⟩ (g s) := rfl

end TrtLlm
