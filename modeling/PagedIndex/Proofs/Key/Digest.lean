import PagedIndex.Key.Digest
import PagedIndex.Proofs.Key.Order

/-! Digests of keys. Keys that compare as equal have the same digest, since they have one canonical
number. Apart from them only an integer and a real that is none have the same digest, when the
integer in two's complement is the bits of the real.
-/

namespace PagedIndex

open Binary64

/-! ## The bytes of a word -/

theorem toNat_byte64 (word : UInt64) {i : Nat} (place : i < 8)
    : (word >>> (8 * i).toUInt64).toUInt8.toNat = word.toNat / 256 ^ i % 256 := by
  have shift : (8 * i).toUInt64.toNat % 64 = 8 * i := by
    rw [UInt64.toNat_ofNat']
    omega
  rw [UInt64.toNat_toUInt8, UInt64.toNat_shiftRight, shift, Nat.shiftRight_eq_div_pow, Nat.pow_mul]

/-- Eight bytes tell a word, by induction on how many of them are read. -/
theorem littleEndian64_injective : Function.Injective littleEndian64 := by
  intro a b same
  have bytes (i : Nat) (place : i < 8) : a.toNat / 256 ^ i % 256 = b.toNat / 256 ^ i % 256 := by
    have byte := List.map_inj_left.mp same i (List.mem_range.mpr place)
    rw [← toNat_byte64 a place, ← toNat_byte64 b place, byte]
  have read (n : Nat) (size : n ≤ 8) : a.toNat % 256 ^ n = b.toNat % 256 ^ n := by
    induction n with
    | zero => rw [Nat.pow_zero, Nat.mod_one, Nat.mod_one]
    | succ n ih => rw [Nat.mod_pow_succ, Nat.mod_pow_succ, ih (by omega), bytes n (by omega)]
  have whole := read 8 (le_refl _)
  have wordA : a.toNat < 256 ^ 8 := a.toNat_lt
  have wordB : b.toNat < 256 ^ 8 := b.toNat_lt
  rw [Nat.mod_eq_of_lt wordA, Nat.mod_eq_of_lt wordB] at whole
  exact UInt64.toNat_inj.mp whole

/-! ## Canonical numbers -/

/-- A binary64 number that is no integer in the range of `Int64`. -/
inductive Binary64.NoWhole : Binary64 → Prop
  | nan : NoWhole nan
  | infinite {x : Binary64} (is : x.isInfinite = true) : NoWhole x
  | fractional {x : Binary64} (finite : x.magnitudeBits < infinityBits.toNat)
      (broken : ∀ n : Int, x.toRat ≠ n)
    : NoWhole x
  | outside {x : Binary64} (finite : x.magnitudeBits < infinityBits.toNat) {n : Int}
      (whole : x.toRat = n) (beyond : n < -2 ^ 63 ∨ 2 ^ 63 ≤ n)
    : NoWhole x

namespace Quantity

/-- A real in canonical form is no integer that could be held as such. -/
theorem noWhole_of_canonical {x : Binary64} (canonical : (real x).Canonical) : x.NoWhole := by
  cases number : x.isNaN with
  | true =>
      rw [canonical.1 number]
      exact .nan
  | false =>
      rcases (isNaN_eq_false_iff.mp number).lt_or_eq with finite | infinite
      · by_cases integer : ∃ n : Int, x.toRat = n
        · obtain ⟨n, whole⟩ := integer
          refine .outside finite whole (by_contra fun range => ?_)
          have held : (Int64.ofInt n).toInt = n :=
            Int64.toInt_ofInt_of_le (by omega) (by omega)
          exact canonical.2 (Int64.ofInt n) (by rw [held, value_of_finite finite, whole])
        · exact .fractional finite (not_exists.mp integer)
      · exact .infinite (decide_eq_true infinite)

/-- Canonical numbers are the same if they compare as equal. -/
theorem eq_of_compare_eq {x y : Quantity} (left : x.Canonical) (right : y.Canonical)
    (equal : x.compare y = .eq)
    : x = y := by
  have same : x.value = y.value := by rwa [compare_eq left right, cmp_eq_eq_iff] at equal
  cases x with
  | whole i =>
      cases y with
      | whole j =>
          have integers : (i.toInt : ℚ) = j.toInt := Numeric.ofRat_inj.mp same
          have equals : i = j := Int64.toInt_inj.mp (by exact_mod_cast integers)
          rw [equals]
      | real y => exact absurd same.symm (right.2 i)
  | real x =>
      cases y with
      | whole j => exact absurd same (left.2 j)
      | real y =>
          change Ord.compare x.orderCode y.orderCode = .eq at equal
          rw [UInt64.compare_eq_toNat_compare_toNat, compare_eq_iff_eq, UInt64.toNat_inj] at equal
          rw [orderCode_injective equal]

end Quantity

/-! ## Keys -/

namespace Key

variable {a b : Key} {x y : Quantity}

theorem digest_of_quantity? {k : Key} (numeric : k.quantity? = some x)
    : k.digest = 2 :: littleEndian64 x.word := by
  cases k with
  | int i =>
      obtain rfl := Option.some.inj numeric
      rfl
  | real code =>
      obtain rfl := Option.some.inj numeric
      rfl
  | _ => contradiction

/-- Digests begin with the rank, which fits a byte. -/
theorem rank_eq_of_digest_eq (same : a.digest = b.digest) : a.rank = b.rank := by
  have small (k : Key) : k.rank < UInt8.size := by cases k <;> simp [rank, UInt8.size]
  have first := congrArg UInt8.toNat (List.head_eq_of_cons_eq same)
  rwa [UInt8.toNat_ofNat_of_lt' (small a), UInt8.toNat_ofNat_of_lt' (small b)] at first

/-- An integer and a real that is none, the former of which in two's complement is the bits of the
latter.
-/
def Collides (a b : Key) : Prop :=
  ∃ (i : Int64) (x : Binary64), a.quantity? = some (.whole i) ∧ b.quantity? = some (.real x)
    ∧ x.NoWhole ∧ i.toUInt64 = x.bits

theorem digest_eq_of_collides (collides : a.Collides b) : a.digest = b.digest := by
  obtain ⟨i, x, left, right, _, bits⟩ := collides
  rw [digest_of_quantity? left, digest_of_quantity? right, Quantity.word, bits, Quantity.word]

/-- Numbers have the same digest if they are the same or collide. -/
theorem collides_of_word_eq (left : a.quantity? = some x) (right : b.quantity? = some y)
    (words : x.word = y.word)
    : x = y ∨ a.Collides b ∨ b.Collides a := by
  obtain ⟨_, canonicalA⟩ := value_of_quantity? left
  obtain ⟨_, canonicalB⟩ := value_of_quantity? right
  cases x with
  | whole i =>
      cases y with
      | whole j =>
          have integers := congrArg Int64.ofUInt64 words
          exact Or.inl (congrArg Quantity.whole integers)
      | real y =>
          exact Or.inr (Or.inl ⟨i, y, left, right, Quantity.noWhole_of_canonical canonicalB, words⟩)
  | real x =>
      cases y with
      | whole j =>
          have noWhole := Quantity.noWhole_of_canonical canonicalA
          exact Or.inr (Or.inr ⟨j, x, right, left, noWhole, words.symm⟩)
      | real y =>
          have reals := congrArg Binary64.mk words
          exact Or.inl (congrArg Quantity.real reals)

theorem rank_eq_of_compare_eq (equal : Ord.compare a b = .eq) : a.rank = b.rank := by
  by_contra apart
  change compare a b = .eq at equal
  rw [compare_of_rank_ne apart, compare_eq_iff_eq] at equal
  exact apart equal

/-- Keys that compare as equal have the same digest. -/
theorem digest_eq_of_compare_eq (equal : Ord.compare a b = .eq) : a.digest = b.digest := by
  have same := rank_eq_of_compare_eq equal
  change compare a b = .eq at equal
  rcases kinds_of_rank_eq same with
    ⟨rfl, rfl⟩ | ⟨x, y, rfl, rfl⟩ | ⟨x, y, left, right⟩ | ⟨s, t, rfl, rfl⟩
  · rfl
  · obtain rfl : x = y := compare_eq_iff_eq.mp equal
    rfl
  · rw [compare_of_quantity? left right] at equal
    have numbers := Quantity.eq_of_compare_eq (value_of_quantity? left).2
      (value_of_quantity? right).2 equal
    rw [digest_of_quantity? left, digest_of_quantity? right, numbers]
  · obtain rfl : s = t := compare_eq_iff_eq.mp equal
    rfl

/-- Keys of the same digest compare as equal or collide. -/
theorem compare_eq_or_collides (same : a.digest = b.digest)
    : Ord.compare a b = .eq ∨ a.Collides b ∨ b.Collides a := by
  rcases kinds_of_rank_eq (rank_eq_of_digest_eq same) with
    ⟨rfl, rfl⟩ | ⟨x, y, rfl, rfl⟩ | ⟨x, y, left, right⟩ | ⟨s, t, rfl, rfl⟩
  · exact Or.inl rfl
  · cases x <;> cases y <;> first
      | exact Or.inl rfl
      | exact absurd same (by decide)
  · rw [digest_of_quantity? left, digest_of_quantity? right] at same
    have words := littleEndian64_injective (List.tail_eq_of_cons_eq same)
    refine (collides_of_word_eq left right words).imp_left fun numbers => ?_
    change compare a b = .eq
    rw [compare_eq_cmp, cmp_eq_eq_iff, (value_of_quantity? left).1, (value_of_quantity? right).1,
      numbers]
  · have bytes : s.toUTF8.data.toList = t.toUTF8.data.toList :=
      List.append_cancel_right (List.tail_eq_of_cons_eq same)
    obtain rfl : s = t :=
      String.toByteArray_inj.mp (ByteArray.ext (Array.toList_inj.mp bytes))
    exact Or.inl Std.ReflCmp.compare_self

/-- Keys have the same digest if and only if they compare as equal, or are numbers of which one is
an integer and the other a real that is none and has the bits of the integer.
-/
theorem digest_eq_iff (a b : Key)
    : a.digest = b.digest ↔ Ord.compare a b = .eq ∨ a.Collides b ∨ b.Collides a := by
  constructor
  · exact compare_eq_or_collides
  · rintro (equal | collides | collides)
    · exact digest_eq_of_compare_eq equal
    · exact digest_eq_of_collides collides
    · exact (digest_eq_of_collides collides).symm

/-- The integer whose bits are those of two and a half has its digest, and is another key. -/
example
    : (Key.int 4612811918334230528).digest = (Key.ofBinary64 ⟨0x4004000000000000⟩).digest
      ∧ Ord.compare (Key.int 4612811918334230528) (Key.ofBinary64 ⟨0x4004000000000000⟩) = .gt := by
  decide

end Key

end PagedIndex
