import Mathlib

/-!
# Runs of cells packed into slots at a stride

`n` items take `u` cells each and are packed one after the other into slots of `s` cells; an item lies in the slot where
its first cell falls, and what would stick out wraps around within that slot. Two items can meet in a cell unless `u`
divides `s` or all items fit into the first slot.
-/

namespace TrtLlm.Packing

def slotIndex (s u b : Nat) : Nat := b * u / s

/-- The cell, within its slot, that is `c` cells past the first cell of item `b`. -/
def cell (s u b c : Nat) : Nat := (b * u % s + c) % s

variable {s u b b' k k' o n : Nat}

theorem cell_lt (hs : 0 < s) (u b c : Nat) : cell s u b c < s := Nat.mod_lt _ hs

/-- Items of one slot that share a cell are a whole slot apart or the same. -/
theorem eq_of_cell_eq (hs : 0 < s) (hslot : slotIndex s u b = slotIndex s u b')
    (h : cell s u b (o + k) = cell s u b' (o + k')) : (b * u + k) % s = (b' * u + k') % s ∧ b * u < b' * u + s := by
  unfold slotIndex at hslot
  unfold cell at h
  have hdiv := Nat.div_add_mod (b * u) s
  have hdiv' := Nat.div_add_mod (b' * u) s
  have hmod := Nat.mod_lt (b * u) hs
  rw [Nat.mod_add_mod, Nat.mod_add_mod] at h
  constructor
  · have hcong : o + (b * u + k) ≡ o + (b' * u + k') [MOD s] := by
      show (o + (b * u + k)) % s = (o + (b' * u + k')) % s
      rw [show o + (b * u + k) = b * u + (o + k) by omega, show o + (b' * u + k') = b' * u + (o + k') by omega, h]
    exact Nat.ModEq.add_left_cancel' o hcong
  · rw [hslot] at hdiv
    omega

/-- No two items meet in a cell when the stride divides the slot or all items fit into one slot. -/
theorem cell_injective (hs : 0 < s) (hfit : u ∣ s ∨ n * u ≤ s) (hb : b < n)
    (hb' : b' < n) (hk : k < u) (hk' : k' < u) (hslot : slotIndex s u b = slotIndex s u b')
    (hcell : cell s u b (o + k) = cell s u b' (o + k')) : b = b' ∧ k = k' := by
  obtain ⟨hmod, hnear⟩ := eq_of_cell_eq hs hslot hcell
  obtain ⟨_, hnear'⟩ := eq_of_cell_eq hs hslot.symm hcell.symm
  -- the two items span less than a slot, so equal remainders mean equal cells
  have hspan : ∀ {a a' c : Nat} (c' : Nat), a < n → c < u → a * u < a' * u + s → a * u + c < a' * u + c' + s := by
    intro a a' c c' ha hc hnear
    rcases hfit with ⟨m, rfl⟩ | hfit
    · have hlt : a < a' + m := by
        refine Nat.lt_of_mul_lt_mul_right (a := u) ?_
        rw [add_mul, mul_comm m u]
        exact hnear
      have hle : (a + 1) * u ≤ (a' + m) * u := Nat.mul_le_mul_right u hlt
      rw [add_mul, add_mul, mul_comm m u] at hle
      omega
    · have hle : (a + 1) * u ≤ n * u := Nat.mul_le_mul_right u ha
      rw [add_mul] at hle
      omega
  have hlt := hspan k' hb hk hnear
  have hlt' := hspan k hb' hk' hnear'
  have heq : b * u + k = b' * u + k' := by
    have hd := Nat.div_add_mod (b * u + k) s
    have hd' := Nat.div_add_mod (b' * u + k') s
    rcases lt_trichotomy ((b * u + k) / s) ((b' * u + k') / s) with h | h | h
    · have := Nat.mul_le_mul_left s h
      rw [Nat.mul_succ] at this
      omega
    · rw [h] at hd
      omega
    · have := Nat.mul_le_mul_left s h
      rw [Nat.mul_succ] at this
      omega
  have hbb : b = b' := by
    have h1 : (b * u + k) / u = b := by
      rw [mul_comm, Nat.mul_add_div (by omega), Nat.div_eq_of_lt hk, add_zero]
    have h2 : (b' * u + k') / u = b' := by
      rw [mul_comm, Nat.mul_add_div (by omega), Nat.div_eq_of_lt hk', add_zero]
    rw [← h1, heq, h2]
  subst hbb
  exact ⟨rfl, by omega⟩

/-- Otherwise the item that starts where the first slot ends wraps around onto the first item. -/
theorem exists_cell_eq (hu : 0 < u) (hle : u ≤ s) (hndvd : ¬ u ∣ s) (hlong : s < n * u) (o : Nat) :
    ∃ b k, 0 < b ∧ b < n ∧ k < u ∧ slotIndex s u b = slotIndex s u 0 ∧ cell s u b (o + k) = cell s u 0 (o + 0) := by
  have hlt := Nat.mod_lt s hu
  have hdiv := Nat.div_add_mod s u
  rw [mul_comm] at hdiv
  have hstart : s / u * u < s := by omega
  refine ⟨s / u, s % u, Nat.div_pos hle hu, Nat.div_lt_of_lt_mul (by rwa [mul_comm]), hlt, ?_, ?_⟩
  · rw [slotIndex, slotIndex, Nat.div_eq_of_lt hstart, zero_mul, Nat.zero_div]
  · rw [cell, cell, Nat.mod_eq_of_lt hstart, zero_mul, Nat.zero_mod,
      show s / u * u + (o + s % u) = 0 + (o + 0) + s by omega, Nat.add_mod_right]

theorem slotIndex_lt_ceil (hs : 0 < s) (hu : 0 < u) (hb : b < n) {frac : Rat} (hfrac : (u : Rat) / s ≤ frac) :
    slotIndex s u b < ⌈(n : Rat) * frac⌉.toNat := by
  have hlt : ((slotIndex s u b : Nat) : Rat) < n * frac := by
    calc ((slotIndex s u b : Nat) : Rat) ≤ (b * u : Nat) / (s : Rat) := Nat.cast_div_le
      _ = b * ((u : Rat) / s) := by push_cast; ring
      _ < n * ((u : Rat) / s) := by
          have : (b : Rat) < n := by exact_mod_cast hb
          have hpos : (0 : Rat) < (u : Rat) / s := by positivity
          exact mul_lt_mul_of_pos_right this hpos
      _ ≤ n * frac := mul_le_mul_of_nonneg_left hfrac (Nat.cast_nonneg n)
  have hceil : ((slotIndex s u b : Nat) : Int) < ⌈(n : Rat) * frac⌉ := Int.lt_ceil.2 (by exact_mod_cast hlt)
  omega

end TrtLlm.Packing
