import Mathlib

/-!
# `DynamicBitset`

The resizable bitset of `_utils.py`: an array of 64-bit words and a running count of the set bits. It stands for the
finite set `members` of the indices whose bit is set. A read or write past the last word raises `IndexError`, so the
operations return `none` there.
-/

namespace TrtLlm.KvCache

open List

def divUp (x y : Nat) : Nat := (x + y - 1) / y

variable {y x n : Nat}

theorem divUp_mul_ge (x : Nat) (hy : 0 < y) : x ≤ divUp x y * y := by
  have h := Nat.lt_div_mul_add (a := x + y - 1) hy
  unfold divUp
  omega

theorem divUp_le_iff (hy : 0 < y) : divUp x y ≤ n ↔ x ≤ n * y := by
  unfold divUp
  rw [Nat.div_le_iff_le_mul hy]
  omega

theorem lt_divUp_iff (hy : 0 < y) : n < divUp x y ↔ n * y < x := by
  rw [← not_le, divUp_le_iff hy, not_le]

theorem divUp_mul (hy : 0 < y) (n : Nat) : divUp (n * y) y = n := by
  apply le_antisymm ((divUp_le_iff hy).2 le_rfl)
  exact Nat.le_of_mul_le_mul_right (divUp_mul_ge (n * y) hy) hy

abbrev Word := BitVec 64

def popcount (word : Word) : Nat := (List.range 64).countP fun k => word.getLsbD k

structure DynamicBitset where
  bits : List Word
  numSetBits : Nat
deriving DecidableEq, Repr

namespace DynamicBitset

variable (capacity : Nat)

def ofCapacity : DynamicBitset := ⟨List.replicate (divUp capacity 64) 0, 0⟩

variable (b : DynamicBitset) (index : Nat)

def get : Option Bool := b.bits[index / 64]?.map fun word => word &&& (1#64 <<< (index % 64)) != 0

def set : Option DynamicBitset := do
  if !(← b.get index) then
    return ⟨b.bits.modify (index / 64) (· ||| 1#64 <<< (index % 64)), b.numSetBits + 1⟩
  return b

def clear : Option DynamicBitset := do
  if ← b.get index then
    return ⟨b.bits.modify (index / 64) (· &&& ~~~(1#64 <<< (index % 64))), b.numSetBits - 1⟩
  return b

/-- The mask of the bits below `newCapacity % 64` in the last retained word. -/
def keepMask (newCapacity : Nat) : Word := BitVec.allOnes 64 >>> (64 - newCapacity % 64)

/-- The first phase of `resize`: when the word count does not grow, the bits from the new capacity on are discounted and
masked out of the partial word. -/
def dropTail (newCapacity : Nat) : DynamicBitset :=
  let newElems := divUp newCapacity 64
  let dropped := ((b.bits.drop newElems).map popcount).sum
  let b := { b with numSetBits := b.numSetBits - dropped }
  if 1 ≤ newElems ∧ newCapacity % 64 ≠ 0 then
    let word := b.bits.getD (newElems - 1) 0
    { bits := b.bits.set (newElems - 1) (word &&& keepMask newCapacity)
      numSetBits := b.numSetBits - popcount (word &&& ~~~keepMask newCapacity) }
  else b

def resize (newCapacity : Nat) : DynamicBitset :=
  let oldElems := b.bits.length
  let newElems := divUp newCapacity 64
  let b := if newElems ≤ oldElems then b.dropTail newCapacity else b
  if oldElems < newElems then
    { b with bits := b.bits ++ List.replicate (newElems - oldElems) 0 }
  else if newElems < oldElems then { b with bits := b.bits.take newElems }
  else b

/-- The first and the last word of `any_set`. -/
def anyAtEnds (start stop : Nat) : Option Bool :=
  let startWordMask : Word := BitVec.allOnes 64 <<< (start % 64)
  if start / 64 = stop / 64 then b.bits[start / 64]?.map (startWordMask &&& keepMask stop &&& · != 0)
  else do
    if ← b.bits[start / 64]?.map (startWordMask &&& · != 0) then return true
    if stop % 64 ≠ 0 then b.bits[stop / 64]?.map (keepMask stop &&& · != 0) else return false

def anySet (start : Nat) (stop : Int) : Option Bool :=
  if stop ≤ start then some false
  else do
    if ← b.anyAtEnds start stop.toNat then return true
    (List.range' (start / 64 + 1) (stop.toNat / 64 - (start / 64 + 1))).anyM fun i => b.bits[i]?.map (· != 0)

def contains : Bool := (b.bits.getD (index / 64) 0).getLsbD (index % 64)

def members : Finset Nat := (Finset.range (64 * b.bits.length)).filter (b.contains ·)

def Counted : Prop := b.numSetBits = b.members.card

variable {b : DynamicBitset} {index newCap : Nat}

@[simp] theorem mem_members : index ∈ b.members ↔ b.contains index = true := by
  rw [members, Finset.mem_filter, Finset.mem_range]
  refine ⟨fun h => h.2, fun h => ⟨?_, h⟩⟩
  by_contra hge
  have hword : b.bits.length ≤ index / 64 := by omega
  simp [contains, getElem?_eq_none hword] at h

theorem members_eq_of_contains {s : Finset Nat} (h : ∀ index, b.contains index = true ↔ index ∈ s) : b.members = s := by
  ext index
  rw [mem_members, h]

theorem getLsbD_bit (k j : Nat) (hk : k < 64) : (1#64 <<< k).getLsbD j = decide (k = j) := by
  change (BitVec.twoPow 64 k).getLsbD j = decide (k = j)
  simp [hk]

theorem and_ne_zero_iff {word mask : Word} :
    (word &&& mask != 0) = true ↔ ∃ k < 64, word.getLsbD k = true ∧ mask.getLsbD k = true := by
  rw [bne_iff_ne]
  constructor
  · intro hne
    by_contra hnone
    refine hne (BitVec.eq_of_getLsbD_eq fun k hk => ?_)
    simpa using fun hword hmask => hnone ⟨k, hk, hword, hmask⟩
  · rintro ⟨k, -, hword, hmask⟩ hzero
    have hbit := congrArg (BitVec.getLsbD · k) hzero
    simp [hword, hmask] at hbit

theorem get_eq (h : index < 64 * b.bits.length) : b.get index = some (b.contains index) := by
  have hword : index / 64 < b.bits.length := by omega
  have hk : index % 64 < 64 := Nat.mod_lt _ (by decide)
  simp only [get, contains, List.getD, getElem?_eq_getElem hword, Option.map_some, Option.some.injEq]
  rw [Bool.eq_iff_iff, and_ne_zero_iff]
  simp [getLsbD_bit _ _ hk, hk]

theorem contains_modify (bit : Bool) {f : Word → Word} (n : Nat) (hword : index / 64 < b.bits.length)
    (hf : ∀ word k, k < 64 → (f word).getLsbD k = if k = index % 64 then bit else word.getLsbD k) (i : Nat) :
    contains ⟨b.bits.modify (index / 64) f, n⟩ i = if i = index then bit else b.contains i := by
  have hi : i % 64 < 64 := Nat.mod_lt _ (by decide)
  by_cases heq : i / 64 = index / 64
  · have hiff : i = index ↔ i % 64 = index % 64 := by omega
    simp [contains, heq, getElem?_eq_getElem hword, hf _ _ hi, hiff]
  · have hne : i ≠ index := fun h => heq (h ▸ rfl)
    simp [contains, Ne.symm heq, hne]

theorem card_members (b : DynamicBitset) : b.members.card = (b.bits.map popcount).sum := by
  have hcount : b.members.card = (List.range (64 * b.bits.length)).countP b.contains := by
    rw [countP_eq_length_filter]
    simp [members, Finset.card, Multiset.range]
  rw [hcount]
  obtain ⟨bits, n⟩ := b
  clear hcount
  induction bits using reverseRecOn with
  | nil => rfl
  | append_singleton bits word ih =>
    have hbelow : (List.range (64 * bits.length)).countP (contains ⟨bits ++ [word], n⟩) =
        (List.range (64 * bits.length)).countP (contains ⟨bits, n⟩) := by
      refine countP_congr fun i hi => ?_
      have hlt : i / 64 < bits.length := by
        rw [mem_range] at hi
        omega
      simp [contains, getElem?_append_left hlt]
    have hlast : (List.range 64).countP (contains ⟨bits ++ [word], n⟩ ∘ (64 * bits.length + ·)) = popcount word := by
      refine countP_congr fun k hk => ?_
      rw [mem_range] at hk
      have hdiv : (64 * bits.length + k) / 64 = bits.length := by omega
      have hmod : (64 * bits.length + k) % 64 = k := by omega
      simp [contains, hdiv, hmod]
    rw [length_append, length_singleton, Nat.mul_add_one, List.range_add, countP_append, countP_map, hbelow, hlast, ih]
    simp

theorem members_ofCapacity : (ofCapacity capacity).members = ∅ := by
  refine members_eq_of_contains fun index => ?_
  simp only [ofCapacity, contains, getD, getElem?_replicate]
  split <;> simp

theorem counted_ofCapacity : (ofCapacity capacity).Counted := by
  rw [Counted, members_ofCapacity]
  rfl

theorem length_ofCapacity : (ofCapacity capacity).bits.length = divUp capacity 64 := by
  simp [ofCapacity]

theorem set_spec (h : index < 64 * b.bits.length) (hcount : b.Counted) :
    ∃ c, b.set index = some c ∧ c.bits.length = b.bits.length ∧ c.members = insert index b.members ∧ c.Counted := by
  have hword : index / 64 < b.bits.length := by omega
  have hk : index % 64 < 64 := Nat.mod_lt _ (by decide)
  simp only [set, get_eq h]
  cases hbit : b.contains index with
  | true =>
    refine ⟨b, rfl, rfl, ?_, hcount⟩
    rw [Finset.insert_eq_of_mem (mem_members.2 hbit)]
  | false =>
    have hmembers : members ⟨b.bits.modify (index / 64) (· ||| 1#64 <<< (index % 64)),
        b.numSetBits + 1⟩ = insert index b.members := by
      refine members_eq_of_contains fun i => ?_
      rw [contains_modify true _ hword fun word k _ => ?_, Finset.mem_insert]
      · simp
      · rw [BitVec.getLsbD_or, getLsbD_bit _ _ hk]
        by_cases heq : k = index % 64 <;> simp [heq, Ne.symm]
    refine ⟨_, rfl, by simp, hmembers, ?_⟩
    rw [Counted, hmembers, Finset.card_insert_of_notMem (by simp [hbit]), ← hcount]

theorem clear_spec (h : index < 64 * b.bits.length) (hcount : b.Counted) :
    ∃ c, b.clear index = some c ∧ c.bits.length = b.bits.length ∧ c.members = b.members.erase index ∧ c.Counted := by
  have hword : index / 64 < b.bits.length := by omega
  have hk : index % 64 < 64 := Nat.mod_lt _ (by decide)
  simp only [clear, get_eq h]
  cases hbit : b.contains index with
  | false =>
    refine ⟨b, rfl, rfl, ?_, hcount⟩
    rw [Finset.erase_eq_of_notMem (by simp [hbit])]
  | true =>
    have hmembers : members ⟨b.bits.modify (index / 64) (· &&& ~~~(1#64 <<< (index % 64))),
        b.numSetBits - 1⟩ = b.members.erase index := by
      refine members_eq_of_contains fun i => ?_
      rw [contains_modify false _ hword fun word k hlt => ?_, Finset.mem_erase]
      · simp
      · rw [BitVec.getLsbD_and, BitVec.getLsbD_not, getLsbD_bit _ _ hk]
        by_cases heq : k = index % 64
        · simp [heq]
        · simp [heq, Ne.symm heq, hlt]
    refine ⟨_, rfl, by simp, hmembers, ?_⟩
    rw [Counted, hmembers, Finset.card_erase_of_mem (mem_members.2 hbit), ← hcount]

theorem getLsbD_keepMask (newCap k : Nat) : (keepMask newCap).getLsbD k = decide (k < newCap % 64) := by
  rw [keepMask, BitVec.getLsbD_ushiftRight, BitVec.getLsbD_allOnes]
  congr 1
  rw [eq_iff_iff]
  omega

theorem popcount_split (word mask : Word) : popcount (word &&& mask) + popcount (word &&& ~~~mask) = popcount word := by
  have hrest : popcount (word &&& ~~~mask) = (List.range 64).countP fun k => word.getLsbD k && !mask.getLsbD k := by
    refine countP_congr fun k hk => ?_
    simp [mem_range.1 hk]
  rw [hrest, popcount, popcount, countP_eq_countP_filter_add (List.range 64) word.getLsbD mask.getLsbD, countP_filter,
    countP_filter]
  simp

theorem resize_of_lt (h : b.bits.length < divUp newCap 64) :
    b.resize newCap = ⟨b.bits ++ List.replicate (divUp newCap 64 - b.bits.length) 0, b.numSetBits⟩ := by
  simp [resize, not_le.2 h]

theorem dropTail_length (b : DynamicBitset) (newCap : Nat) : (b.dropTail newCap).bits.length = b.bits.length := by
  unfold dropTail
  dsimp only
  split <;> simp

theorem resize_of_ge (h : divUp newCap 64 ≤ b.bits.length) :
    b.resize newCap = ⟨(b.dropTail newCap).bits.take (divUp newCap 64), (b.dropTail newCap).numSetBits⟩ := by
  simp only [resize, not_lt.2 h, if_false]
  split
  · rfl
  · rw [take_of_length_le (by rw [dropTail_length]; omega)]

theorem length_resize (b : DynamicBitset) (newCap : Nat) : (b.resize newCap).bits.length = divUp newCap 64 := by
  by_cases h : b.bits.length < divUp newCap 64
  · rw [resize_of_lt h]
    simp
    omega
  · rw [resize_of_ge (not_lt.1 h)]
    simp [dropTail_length]
    omega

theorem contains_resize_of_ge (h : divUp newCap 64 ≤ b.bits.length) (i : Nat) :
    (b.resize newCap).contains i = (b.contains i && decide (i < newCap)) := by
  have hle := divUp_mul_ge newCap (y := 64) (by decide)
  have hgt := lt_divUp_iff (x := newCap) (y := 64) (n := divUp newCap 64 - 1) (by decide)
  rw [resize_of_ge h]
  by_cases hword : i / 64 < divUp newCap 64
  · have hlen : i / 64 < b.bits.length := by omega
    by_cases hlast : i / 64 = divUp newCap 64 - 1 ∧ newCap % 64 ≠ 0
    · have hpart : 1 ≤ divUp newCap 64 ∧ newCap % 64 ≠ 0 := ⟨by omega, hlast.2⟩
      have hiff : i % 64 < newCap % 64 ↔ i < newCap := by omega
      rw [hlast.1] at hlen hword
      simp only [contains, hlast.1, dropTail, if_pos hpart, List.getD, getElem?_take, if_pos hword,
        getElem?_set_self hlen, Option.getD_some, BitVec.getLsbD_and, getLsbD_keepMask, hiff]
    · have hlt : i < newCap := by
        by_contra hge
        exact hlast ⟨by omega, by omega⟩
      have hsame : (b.dropTail newCap).bits[i / 64]? = b.bits[i / 64]? := by
        unfold dropTail
        dsimp only
        split
        · rename_i hpart
          exact getElem?_set_ne (fun heq => hlast ⟨heq.symm, hpart.2⟩)
        · rfl
      simp [contains, getElem?_take, if_pos hword, hsame, hlt]
  · have hge : ¬ i < newCap := by omega
    simp [contains, hword, hge]

theorem contains_resize_of_lt (h : b.bits.length < divUp newCap 64) (i : Nat) :
    (b.resize newCap).contains i = (b.contains i && decide (i < newCap)) := by
  have hgt := (lt_divUp_iff (by decide)).1 h
  rw [resize_of_lt h]
  by_cases hword : i / 64 < b.bits.length
  · have hlt : i < newCap := by omega
    simp [contains, getElem?_append_left hword, hlt]
  · have hzero : b.contains i = false := by
      simp [contains, getElem?_eq_none (not_lt.1 hword)]
    rw [hzero, contains, List.getD, getElem?_append_right (not_lt.1 hword), getElem?_replicate]
    split <;> simp

theorem members_resize (b : DynamicBitset) (newCap : Nat) :
    (b.resize newCap).members = b.members.filter (· < newCap) := by
  refine members_eq_of_contains fun i => ?_
  have hcontains : (b.resize newCap).contains i = (b.contains i && decide (i < newCap)) := by
    by_cases h : b.bits.length < divUp newCap 64
    · exact contains_resize_of_lt h i
    · exact contains_resize_of_ge (not_lt.1 h) i
  simp [hcontains]

theorem counted_resize (newCap : Nat) (hcount : b.Counted) : (b.resize newCap).Counted := by
  rw [Counted, card_members] at hcount ⊢
  by_cases h : b.bits.length < divUp newCap 64
  · rw [resize_of_lt h]
    simp [hcount, popcount]
  have hle : divUp newCap 64 ≤ b.bits.length := not_lt.1 h
  have hsplit : ((b.bits.take (divUp newCap 64)).map popcount).sum +
      ((b.bits.drop (divUp newCap 64)).map popcount).sum = b.numSetBits := by
    rw [hcount, ← sum_append, ← map_append, take_append_drop]
  rw [resize_of_ge hle]
  unfold dropTail
  dsimp only
  split
  · -- The last retained word loses its bits from the new capacity on.
    rename_i hpart
    obtain ⟨last, hlast⟩ : ∃ last, divUp newCap 64 = last + 1 := ⟨_, (Nat.sub_add_cancel hpart.1).symm⟩
    have hlt : last < b.bits.length := by omega
    have hword := popcount_split (b.bits.getD last 0) (keepMask newCap)
    rw [hlast] at hsplit ⊢
    simp only [Nat.add_sub_cancel, take_add_one, getElem?_set_self hlt, map_append,
      sum_append, take_set_of_le (le_refl last), Option.toList_some, map_cons, sum_cons, getElem?_eq_getElem hlt, List.getD,
      Option.getD_some] at hsplit hword ⊢
    omega
  · dsimp only
    omega

/-- What a query returns that raises nothing. -/
def Answers (answer : Option Bool) (P : Prop) : Prop := ∃ found, answer = some found ∧ (found = true ↔ P)

theorem Answers.congr {x : Option Bool} {P Q : Prop} (h : Answers x P) (hiff : P ↔ Q) : Answers x Q := by rwa [← hiff]

theorem Answers.or {x y : Option Bool} {P Q : Prop} (hx : Answers x P) (hy : Answers y Q) :
    Answers (x >>= fun found => if found = true then some true else y) (P ∨ Q) := by
  obtain ⟨found, rfl, hfound⟩ := hx
  cases found with
  | true => exact ⟨true, rfl, iff_of_true rfl (.inl (hfound.1 rfl))⟩
  | false =>
    obtain ⟨rest, rfl, hrest⟩ := hy
    exact ⟨rest, rfl, hrest.trans (or_iff_right (mt hfound.2 Bool.false_ne_true)).symm⟩

theorem Answers.anyM {words : List Nat} {read : Nat → Option Bool} {P : Nat → Prop}
    (h : ∀ word ∈ words, Answers (read word) (P word)) : Answers (words.anyM read) (∃ word ∈ words, P word) := by
  induction words with
  | nil => exact ⟨false, rfl, by simp⟩
  | cons word words ih =>
    obtain ⟨hword, hrest⟩ := forall_mem_cons.1 h
    obtain ⟨found, hrun, hiff⟩ := hword.or (ih hrest)
    exact ⟨found, hrun ▸ bind_congr fun | true => rfl | false => rfl, hiff.trans (exists_mem_cons_iff ..).symm⟩

variable {start stop word : Nat} {mask : Word}

def Hit (b : DynamicBitset) (start stop word : Nat) : Prop := ∃ i ∈ b.members, i / 64 = word ∧ start ≤ i ∧ i < stop

theorem answers_masked (hword : word < b.bits.length)
    (hmask : ∀ k < 64, mask.getLsbD k = true ↔ start ≤ 64 * word + k ∧ 64 * word + k < stop) :
    Answers (b.bits[word]?.map (mask &&& · != 0)) (b.Hit start stop word) := by
  refine ⟨mask &&& b.bits.getD word 0 != 0, by simp [getElem?_eq_getElem hword], and_ne_zero_iff.trans ?_⟩
  constructor
  · rintro ⟨k, hk, hin, hbit⟩
    have hdiv : (64 * word + k) / 64 = word := by omega
    have hmod : (64 * word + k) % 64 = k := by omega
    exact ⟨64 * word + k, mem_members.2 (by rw [contains, hdiv, hmod]; exact hbit), hdiv, (hmask k hk).1 hin⟩
  · rintro ⟨i, hi, rfl, hrange⟩
    have hk : i % 64 < 64 := Nat.mod_lt _ (by decide)
    refine ⟨i % 64, hk, (hmask _ hk).2 ?_, mem_members.1 hi⟩
    rwa [Nat.div_add_mod]

theorem anyAtEnds_spec (hlt : start < stop) (hle : stop ≤ 64 * b.bits.length) :
    Answers (b.anyAtEnds start stop) (b.Hit start stop (start / 64) ∨ b.Hit start stop (stop / 64)) := by
  have hstart : ∀ k < 64, (BitVec.allOnes 64 <<< (start % 64)).getLsbD k = true ↔ start ≤ 64 * (start / 64) + k := by
    intro k hk
    rw [BitVec.getLsbD_shiftLeft, BitVec.getLsbD_allOnes]
    simp
    omega
  unfold anyAtEnds
  split
  · rename_i hsame
    rw [← hsame, or_self]
    refine answers_masked (by omega) fun k hk => ?_
    rw [BitVec.getLsbD_and, Bool.and_eq_true, hstart k hk, getLsbD_keepMask, decide_eq_true_iff]
    omega
  refine .or (answers_masked (by omega) fun k hk => (hstart k hk).trans (and_iff_left (by omega)).symm) ?_
  split
  · refine answers_masked (by omega) fun k hk => ?_
    rw [getLsbD_keepMask, decide_eq_true_iff]
    omega
  · exact ⟨false, rfl, iff_of_false Bool.false_ne_true fun ⟨i, _, hi⟩ => by omega⟩

theorem anySet_spec (start : Nat) {stop : Int} (hle : stop ≤ 64 * b.bits.length) :
    Answers (b.anySet start stop) (∃ i ∈ b.members, start ≤ i ∧ (i : Int) < stop) := by
  unfold anySet
  split
  · exact ⟨false, rfl, iff_of_false Bool.false_ne_true fun ⟨i, _, hi⟩ => by omega⟩
  obtain ⟨stop, rfl⟩ := Int.eq_ofNat_of_zero_le (show 0 ≤ stop by omega)
  have hwhole : ∀ word, start / 64 < word → word < stop / 64 →
      Answers (b.bits[word]?.map (· != 0)) (b.Hit start stop word) := by
    intro word hlo hhi
    have hmask : ∀ k < 64, (BitVec.allOnes 64).getLsbD k = true ↔ start ≤ 64 * word + k ∧ 64 * word + k < stop := by
      intro k hk
      simp only [BitVec.getLsbD_allOnes, hk, decide_true, true_iff]
      omega
    simpa only [BitVec.allOnes_and] using answers_masked (b := b) (by omega) hmask
  rw [Int.toNat_natCast]
  refine (Answers.or (anyAtEnds_spec (by omega) (by omega))
    (.anyM fun word hword => hwhole word (mem_range'_1.1 hword).1 ?_)).congr ?_
  · have hlt := mem_range'_1.1 hword
    omega
  constructor
  · rintro ((⟨i, hi, -, hrange⟩ | ⟨i, hi, -, hrange⟩) | ⟨_, -, i, hi, -, hrange⟩) <;> exact ⟨i, hi, by omega⟩
  · rintro ⟨i, hi, hlo, hhi⟩
    have hword : b.Hit start stop (i / 64) := ⟨i, hi, rfl, hlo, by omega⟩
    by_cases hs : i / 64 = start / 64
    · exact .inl (.inl (hs ▸ hword))
    by_cases he : i / 64 = stop / 64
    · exact .inl (.inr (he ▸ hword))
    · exact .inr ⟨_, mem_range'_1.2 (by omega), hword⟩

/-- The bitsets that calls with indices below the capacity of their time lead to, with that capacity and the set of
integers they stand for. -/
inductive Reached (initial : Nat) : DynamicBitset → Nat → Finset Nat → Prop
  | init : Reached initial (ofCapacity initial) initial ∅
  | set {b c index capacity s} (h : Reached initial b capacity s) (hindex : index < capacity)
    (hset : b.set index = some c) : Reached initial c capacity (insert index s)
  | clear {b c index capacity s} (h : Reached initial b capacity s) (hindex : index < capacity)
    (hclear : b.clear index = some c) : Reached initial c capacity (s.erase index)
  | resize {b capacity s} (h : Reached initial b capacity s) (n : Nat) :
    Reached initial (b.resize n) n (s.filter (· < n))

variable {initial : Nat} {capacity : Nat} {s : Finset Nat}

theorem le_mul_divUp (n : Nat) : n ≤ 64 * divUp n 64 := by
  rw [mul_comm]
  exact divUp_mul_ge n (by decide)

theorem Reached.stands (h : Reached initial b capacity s) :
    b.members = s ∧ b.Counted ∧ capacity ≤ 64 * b.bits.length := by
  induction h with
  | init => exact ⟨members_ofCapacity initial, counted_ofCapacity initial, length_ofCapacity initial ▸ le_mul_divUp initial⟩
  | set _ hindex hset ih =>
    obtain ⟨rfl, hcount, hle⟩ := ih
    obtain ⟨c, hrun, hlen, hmembers, hcounted⟩ := set_spec (hindex.trans_le hle) hcount
    cases hset.symm.trans hrun
    exact ⟨hmembers, hcounted, hlen ▸ hle⟩
  | clear _ hindex hclear ih =>
    obtain ⟨rfl, hcount, hle⟩ := ih
    obtain ⟨c, hrun, hlen, hmembers, hcounted⟩ := clear_spec (hindex.trans_le hle) hcount
    cases hclear.symm.trans hrun
    exact ⟨hmembers, hcounted, hlen ▸ hle⟩
  | resize _ n ih =>
    obtain ⟨rfl, hcount, -⟩ := ih
    exact ⟨members_resize _ n, counted_resize n hcount, length_resize _ n ▸ le_mul_divUp n⟩

/-- After every run of calls the bitset answers as its set of integers does. -/
theorem Reached.answers (h : Reached initial b capacity s) :
    (∀ i < capacity, Answers (b.get i) (i ∈ s) ∧ (∃ c, b.set i = some c) ∧ ∃ c, b.clear i = some c) ∧
      b.numSetBits = s.card ∧ ∀ (start : Nat) (stop : Int), stop ≤ capacity →
        Answers (b.anySet start stop) (∃ i ∈ s, start ≤ i ∧ (i : Int) < stop) := by
  obtain ⟨rfl, hcount, hle⟩ := h.stands
  refine ⟨fun i hi => ⟨⟨_, get_eq (hi.trans_le hle), mem_members.symm⟩, ?_, ?_⟩, hcount,
    fun start stop hstop => anySet_spec start (by omega)⟩
  · exact (set_spec (hi.trans_le hle) hcount).imp fun _ => And.left
  · exact (clear_spec (hi.trans_le hle) hcount).imp fun _ => And.left

theorem Reached.answers_one : Answers (get ⟨[0, 64], 1⟩ 70) (70 ∈ insert 70 (∅ : Finset Nat)) :=
  ((Reached.set (@Reached.init 100) (by decide) (by decide)).answers.1 70 (by decide)).1

end DynamicBitset

end TrtLlm.KvCache
