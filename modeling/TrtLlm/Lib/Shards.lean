import Mathlib

/-!
# Sharding items over ranks

`H` items are split evenly over `T` ranks, or each is replicated over the same number of ranks. A second split over a
multiple of the ranks refines the first one: the items of a fine rank are those from `shardIndex` on of the coarse rank
above it.
-/

namespace TrtLlm

/-- Each of `T` ranks stores `h` of `H` items. -/
def Sharded (H T h : ℕ) : Prop := T ∣ H ∧ h = H / T ∨ H ∣ T ∧ h = 1

def firstItem (H T rank : ℕ) : ℕ := rank * H / T

/-- Where the items of rank `n` of `T'` begin among the `h` items of a rank of `T`. -/
def shardIndex (T T' h n : ℕ) : ℕ := n * (h * T) / T' % h

end TrtLlm
