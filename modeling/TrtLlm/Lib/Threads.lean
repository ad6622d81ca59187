import Mathlib

/-!
# Threads over a shared memory

A thread is a tree of atomic memory operations. A run of many threads interleaves their operations in any order. If every
address belongs to one thread and no thread leaves its own addresses, each address ends up with what its owner alone
would have left there.
-/

namespace TrtLlm.Lib

open Function

variable {α β ι : Type*}

/-- The operation replaces the value `v` at `a` by `f v`, and the thread goes on with what it saw. -/
inductive Thread (α β : Type*) where
  | done
  | op (a : α) (f : β → β) (next : β → Thread α β)

namespace Thread

def load (a : α) (next : β → Thread α β) : Thread α β := .op a id next

def store (a : α) (v : β) (next : Thread α β) : Thread α β := .op a (fun _ => v) fun _ => next

def modify (a : α) (f : β → β) (next : Thread α β) : Thread α β := .op a f fun _ => next

def Within (P : α → Prop) : Thread α β → Prop
  | .done => True
  | .op a _ next => P a ∧ ∀ v, (next v).Within P

variable {P : α → Prop} {a : α} {t : Thread α β}

@[simp] theorem within_store {v : β} : (store a v t).Within P ↔ P a ∧ t.Within P :=
  and_congr_right fun _ => ⟨fun h => h v, fun h _ => h⟩

@[simp] theorem within_modify {f : β → β} [Nonempty β] : (modify a f t).Within P ↔ P a ∧ t.Within P :=
  and_congr_right fun _ => forall_const β

variable [DecidableEq α]

def run : Thread α β → (α → β) → α → β
  | .done, m => m
  | .op a f next, m => (next (m a)).run (update m a (f (m a)))

theorem run_congr {m m' : α → β} (ht : t.Within P) (hm : ∀ a, P a → m a = m' a) (ha : P a) : t.run m a = t.run m' a := by
  induction t generalizing m m' with
  | done => exact hm a ha
  | op b f next ih =>
    rw [run, hm b ht.1]
    apply ih _ (ht.2 _)
    intro c hc
    by_cases hcb : c = b
    · rw [hcb, update_self, update_self]
    · rw [update_of_ne hcb, update_of_ne hcb, hm c hc]

theorem run_of_not {m : α → β} (ht : t.Within P) (ha : ¬ P a) : t.run m a = m a := by
  induction t generalizing m with
  | done => rfl
  | op b f next ih =>
    rw [run, ih _ (ht.2 _), update_of_ne]
    rintro rfl
    exact ha ht.1

end Thread

variable {T : ι → Thread α β} {m m' : α → β} [DecidableEq ι]

theorem within_update {P : ι → α → Prop} {i : ι} {a : α} {f : β → β} {next : β → Thread α β}
    (hT : ∀ j, (T j).Within (P j)) (hi : T i = .op a f next) (v : β) (j : ι) :
    (update T i (next v) j).Within (P j) := by
  by_cases hj : j = i
  · have hop : (Thread.op a f next).Within (P i) := hi ▸ hT i
    rw [hj, update_self]
    exact hop.2 v
  · rw [update_of_ne hj]
    exact hT j

variable [DecidableEq α]

/-- Some thread performs its next operation. -/
inductive Step : (ι → Thread α β) × (α → β) → (ι → Thread α β) × (α → β) → Prop
  | op {T : ι → Thread α β} {m : α → β} (i : ι) {a : α} {f : β → β} {next : β → Thread α β} (h : T i = .op a f next) :
    Step (T, m) (update T i (next (m a)), update m a (f (m a)))

/-- The memory `m'` can be left when the threads have come to their ends. -/
def Leaves (T : ι → Thread α β) (m m' : α → β) : Prop := Relation.ReflTransGen Step (T, m) (fun _ => .done, m')

/-- The rule for runs: an assertion about threads and memory that every operation keeps holds at the end. -/
theorem Leaves.rule (h : Leaves T m m') (Inv : (ι → Thread α β) → (α → β) → Prop) (hstart : Inv T m)
    (hstep : ∀ T m i a f next, T i = .op a f next → Inv T m → Inv (update T i (next (m a))) (update m a (f (m a)))) :
    Inv (fun _ => .done) m' := by
  suffices hrun : ∀ s, Relation.ReflTransGen Step (T, m) s → Inv s.1 s.2 from hrun _ h
  intro s hs
  induction hs with
  | refl => exact hstart
  | tail _ hlast ih =>
    cases hlast with
    | op i h => exact hstep _ _ i _ _ _ h ih

theorem Leaves.eq_of_not {P : α → Prop} {a : α} (h : Leaves T m m') (hT : ∀ i, (T i).Within P) (ha : ¬ P a) : m' a = m a := by
  refine (h.rule (fun T' m' => (∀ i, (T' i).Within P) ∧ m' a = m a) ⟨hT, rfl⟩ ?_).2
  rintro T m i b f next hi ⟨hwithin, hsame⟩
  refine ⟨within_update hwithin hi _, ?_⟩
  have hop : (Thread.op b f next).Within P := hi ▸ hwithin i
  rw [update_of_ne, hsame]
  rintro rfl
  exact ha hop.1

/-- The rule of ownership: what ends up at an address is what its owner alone would have left there. -/
theorem Leaves.eq_run {owner : α → ι} (h : Leaves T m m') (hT : ∀ i, (T i).Within (owner · = i)) (a : α) :
    m' a = (T (owner a)).run m a := by
  refine (h.rule (fun T' m' => (∀ i, (T' i).Within (owner · = i)) ∧
    ∀ a, (T' (owner a)).run m' a = (T (owner a)).run m a) ⟨hT, fun _ => rfl⟩ ?_).2 a
  rintro T' m' i b f next hi ⟨hwithin, hsame⟩
  refine ⟨within_update hwithin hi _, ?_⟩
  intro a
  rw [← hsame]
  by_cases ha : owner a = i
  · rw [ha, update_self, hi, Thread.run]
  rw [update_of_ne ha]
  apply Thread.run_congr (hwithin _) _ rfl
  intro c hc
  rw [update_of_ne]
  rintro rfl
  have hop : (Thread.op c f next).Within (owner · = i) := hi ▸ hwithin i
  exact ha (hc.symm.trans hop.1)

/-- Threads come to their ends: they may run one after the other. -/
theorem exists_leaves (is : List ι) (hT : ∀ i, i ∉ is → T i = .done) (m : α → β) : ∃ m', Leaves T m m' := by
  induction is generalizing T m with
  | nil =>
    refine ⟨m, ?_⟩
    rw [funext fun i => hT i List.not_mem_nil]
    exact .refl
  | cons i is ih =>
    -- thread `i` runs to its end first
    have hfirst : ∀ (t : Thread α β) (T : ι → Thread α β) (m : α → β), T i = t → (∀ j, j ∉ i :: is → T j = .done) →
        ∃ m', Leaves T m m' := by
      intro t
      induction t with
      | done =>
        intro T m hi hT
        apply ih
        intro j hj
        by_cases hji : j = i
        · rw [hji, hi]
        · exact hT j (List.not_mem_cons_of_ne_of_not_mem hji hj)
      | op a f next ihnext =>
        intro T m hi hT
        obtain ⟨m', hm'⟩ := ihnext (m a) (update T i (next (m a))) (update m a (f (m a))) (update_self ..) fun j hj => by
            rw [update_of_ne (List.ne_of_not_mem_cons hj), hT j hj]
        exact ⟨m', .head (.op i hi) hm'⟩
    exact hfirst _ T m rfl hT

end TrtLlm.Lib
