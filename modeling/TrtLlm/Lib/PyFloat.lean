import Mathlib

/-!
# Floats with a rounding parameter

Floats as exact numbers, infinities and nan. `round` gives the float nearest to an exact number; every operation
rounds its exact result. Nothing is assumed of `round` here: a proof states the laws it needs.
-/

namespace TrtLlm

inductive PyFloat where
  | finite (value : ℚ)
  | infinite (negative : Bool)
  | nan
  deriving DecidableEq

namespace PyFloat

def lt : PyFloat → PyFloat → Bool
  | .finite a, .finite b => a < b
  | .finite _, .infinite negative => !negative
  | .infinite negative, .finite _ => negative
  | .infinite negative, .infinite negative' => negative && !negative'
  | _, _ => false

def eq : PyFloat → PyFloat → Bool
  | .finite a, .finite b => a = b
  | .infinite negative, .infinite negative' => negative == negative'
  | _, _ => false

/-- `(a, b) < (a', b')` -/
def ltPair (a b a' b' : PyFloat) : Bool := if eq a a' then lt b b' else lt a a'

/-- `max(a, b)` keeps the first unless the second is larger. -/
def maximum (a b : PyFloat) : PyFloat := if lt a b then b else a

variable (round : ℚ → PyFloat)

def add : PyFloat → PyFloat → PyFloat
  | .finite a, .finite b => round (a + b)
  | .finite _, .infinite negative => .infinite negative
  | .infinite negative, .finite _ => .infinite negative
  | .infinite negative, .infinite negative' => if negative = negative' then .infinite negative else .nan
  | _, _ => .nan

def mul : PyFloat → PyFloat → PyFloat
  | .finite a, .finite b => round (a * b)
  | .finite a, .infinite negative => if a = 0 then .nan else .infinite (negative != decide (a < 0))
  | .infinite negative, .finite b => if b = 0 then .nan else .infinite (negative != decide (b < 0))
  | .infinite negative, .infinite negative' => .infinite (negative != negative')
  | _, _ => .nan

def div? (a b : PyFloat) : Option PyFloat :=
  if b = .finite 0 then none
  else
    some (match a, b with
      | .finite a, .finite b => round (a / b)
      | .finite _, .infinite _ => .finite 0
      | .infinite negative, .finite b => .infinite (negative != decide (b < 0))
      | _, _ => .nan)

theorem maximum_ne_zero {a b : PyFloat} (hb : lt (.finite 0) b = true) : maximum a b ≠ .finite 0 := by
  unfold maximum
  split
  · rintro rfl
    simp [lt] at hb
  · rename_i hlt
    rintro rfl
    exact hlt hb

end PyFloat

end TrtLlm
