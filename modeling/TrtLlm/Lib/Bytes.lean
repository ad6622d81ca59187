import Mathlib

/-!
# Fixed-width little-endian bytes

The encoding of `int.to_bytes(width, "little")`, its decoder, and the two facts an unambiguous
serialisation rests on: a value that fits is determined by its bytes, and a concatenation of pieces of one
width is cut apart in one way only.
-/

namespace TrtLlm

open List

abbrev Bytes := List UInt8

/-- The `width` least significant bytes of a number, the least significant first. -/
def leBytes : Nat → Nat → Bytes
  | 0, _ => []
  | width + 1, value => UInt8.ofNat (value % 256) :: leBytes width (value / 256)

def ofLeBytes : Bytes → Nat
  | [] => 0
  | byte :: rest => byte.toNat + 256 * ofLeBytes rest

@[simp] theorem length_leBytes (width value : Nat) : (leBytes width value).length = width := by
  induction width generalizing value with
  | zero => rfl
  | succ width ih => rw [leBytes, length_cons, ih]

variable {width : Nat} {α : Type*} {as bs : List α}

theorem ofLeBytes_leBytes {value : Nat} (hfits : value < 256 ^ width) : ofLeBytes (leBytes width value) = value := by
  induction width generalizing value with
  | zero =>
    rw [leBytes, ofLeBytes]
    omega
  | succ width ih =>
    have hrest : value / 256 < 256 ^ width := by
      exact Nat.div_lt_of_lt_mul (by rwa [Nat.mul_comm])
    have hbyte : (UInt8.ofNat (value % 256)).toNat = value % 256 := by
      rw [UInt8.toNat_ofNat']
      omega
    rw [leBytes, ofLeBytes, ih hrest]
    omega

theorem leBytes_ofLeBytes (bytes : Bytes) : leBytes bytes.length (ofLeBytes bytes) = bytes := by
  induction bytes with
  | nil => rfl
  | cons byte rest ih =>
    have hbyte := byte.toNat_lt
    have hlow : (byte.toNat + 256 * ofLeBytes rest) % 256 = byte.toNat := by omega
    have hhigh : (byte.toNat + 256 * ofLeBytes rest) / 256 = ofLeBytes rest := by omega
    rw [length_cons, ofLeBytes, leBytes, hlow, hhigh, ih, UInt8.ofNat_toNat]

theorem ofLeBytes_lt (bytes : Bytes) : ofLeBytes bytes < 256 ^ bytes.length := by
  induction bytes with
  | nil => simp [ofLeBytes]
  | cons byte rest ih =>
    have hbyte := byte.toNat_lt
    rw [ofLeBytes, length_cons]
    omega

theorem leBytes_inj {m n : Nat} (hm : m < 256 ^ width) (hn : n < 256 ^ width)
    (heq : leBytes width m = leBytes width n) : m = n := by
  rw [← ofLeBytes_leBytes hm, heq, ofLeBytes_leBytes hn]

/-- Pieces of one positive width, each determined by its bytes, are determined by their concatenation. -/
theorem flatMap_inj_of_width {encode : α → Bytes} (hpos : 0 < width) (h : ∀ a, (encode a).length = width)
    (hinj : ∀ a b, encode a = encode b → a = b) (heq : as.flatMap encode = bs.flatMap encode) : as = bs := by
  induction as generalizing bs with
  | nil =>
    cases bs with
    | nil => rfl
    | cons b bs =>
      have hlen := congrArg length heq
      rw [flatMap_cons, length_append, h, flatMap_nil, length_nil] at hlen
      omega
  | cons a as ih =>
    cases bs with
    | nil =>
      have hlen := congrArg length heq
      rw [flatMap_cons, length_append, h, flatMap_nil, length_nil] at hlen
      omega
    | cons b bs =>
      obtain ⟨hhead, htail⟩ := append_inj heq ((h a).trans (h b).symm)
      rw [hinj a b hhead, ih htail]

theorem flatMap_pieces (width k : Nat) (l : List α) :
    ((List.range k).flatMap fun i => (l.drop (width * i)).take width) = l.take (width * k) := by
  induction k with
  | zero => simp
  | succ k ih =>
    rw [range_succ, flatMap_append, ih, Nat.mul_succ, take_add, flatMap_cons, flatMap_nil, append_nil]

theorem exists_first_ne {β : Type*} (f : α → β) (h : as.map f = bs.map f) (hne : as ≠ bs) :
    ∃ n a b, as[n]? = some a ∧ bs[n]? = some b ∧ as.take n = bs.take n ∧ a ≠ b ∧ f a = f b := by
  induction as generalizing bs with
  | nil =>
    cases bs with
    | nil => exact absurd rfl hne
    | cons b bs => cases h
  | cons a as ih =>
    cases bs with
    | nil => cases h
    | cons b bs =>
      rw [map_cons, map_cons, cons.injEq] at h
      by_cases hhead : a = b
      · obtain ⟨n, x, y, hx, hy, htake, hxy⟩ := ih h.2 fun htail => hne (by rw [hhead, htail])
        exact ⟨n + 1, x, y, hx, hy, by rw [take_succ_cons, take_succ_cons, hhead, htake], hxy⟩
      · exact ⟨0, a, b, rfl, rfl, rfl, hhead, h.1⟩

end TrtLlm
