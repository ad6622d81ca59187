import Mathlib

/-!
# Tiles

The half-open intervals of one length that cover the natural numbers. A tile is made of the tiles of every length
that divides its own, and two tiles of one length are the same or disjoint.
-/

namespace TrtLlm

def tile (p u : Nat) : Set Nat := Set.Ico (u * p) ((u + 1) * p)

theorem mem_tile {p u x : Nat} : x ∈ tile p u ↔ 0 < p ∧ x / p = u := by
  constructor
  · intro ⟨hlow, hhigh⟩
    have hpos : 0 < p := by
      apply Nat.pos_of_ne_zero
      intro hzero
      simp [hzero] at hhigh
    rw [Nat.div_eq_iff hpos]
    rw [Nat.add_mul] at hhigh
    omega
  · intro ⟨hpos, hdiv⟩
    subst hdiv
    exact ⟨Nat.div_mul_le_self x p, by simpa [Nat.add_mul] using Nat.lt_div_mul_add hpos⟩

theorem eq_of_mem_tile {p u u' x : Nat} (hx : x ∈ tile p u) (hx' : x ∈ tile p u') : u = u' := by
  rw [mem_tile] at hx hx'
  exact hx.2.symm.trans hx'.2

theorem mem_tile_mul {e p u x : Nat} : x ∈ tile (e * p) u ↔ ∃ i < e, x ∈ tile p (u * e + i) := by
  simp only [mem_tile]
  constructor
  · intro ⟨hpos, hdiv⟩
    have he : 0 < e := Nat.pos_of_mul_pos_right hpos
    rw [Nat.mul_comm, ← Nat.div_div_eq_div_mul] at hdiv
    refine ⟨x / p % e, Nat.mod_lt _ he, Nat.pos_of_mul_pos_left hpos, ?_⟩
    rw [← hdiv, Nat.mul_comm, Nat.div_add_mod]
  · intro ⟨i, hi, hpos, hdiv⟩
    refine ⟨Nat.mul_pos (Nat.zero_lt_of_lt hi) hpos, ?_⟩
    rw [Nat.mul_comm e p, ← Nat.div_div_eq_div_mul, hdiv, Nat.mul_comm u e, Nat.mul_add_div (Nat.zero_lt_of_lt hi),
      Nat.div_eq_of_lt hi, Nat.add_zero]

end TrtLlm
