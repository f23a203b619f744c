import PagedIndex.Proofs.Key.Digest
import PagedIndex.Proofs.Number.Nearest

/-! Binary64 numbers as keys and back. A number is read back from its key, up to the payload of a
NaN and the sign of zero, and a stored code reads as a number whose key is equal to it. Only an
integer key is rounded on the way back, to the nearest number, which never takes it past another
number.
-/

namespace PagedIndex

open Binary64

/-- A number as it is read back from its key: any NaN is the one NaN, negative zero is zero, and any
other number is itself.
-/
def Binary64.normalized (x : Binary64) : Binary64 :=
  if x.isNaN then .nan else if x.magnitudeBits = 0 then ⟨0⟩ else x

/-- Normalizing a number leaves what it denotes. -/
theorem Binary64.value_normalized (x : Binary64) : x.normalized.value = x.value := by
  unfold normalized
  split
  next is => rw [value_nan, value_of_isNaN is]
  next =>
    split
    next zero => rw [value_of_zero zero, value_of_zero (by decide)]
    next => rfl

/-- A number that is neither NaN nor a zero is normalized. -/
theorem Binary64.normalized_of_ne {x : Binary64} (number : x.isNaN = false)
    (nonzero : x.magnitudeBits ≠ 0)
    : x.normalized = x := by
  rw [normalized, number, if_neg nonzero]
  rfl

namespace Key

/-- A number is read back from its key. -/
theorem toBinary64?_ofBinary64 (x : Binary64)
    : (ofBinary64 x).toBinary64? = some x.normalized := by
  rw [ofBinary64]
  rcases Quantity.ofBinary64_cases x with
    ⟨i, form, denoted⟩ | ⟨is, form⟩ | ⟨number, form, apart⟩ <;> rw [form]
  · have number : x.isNaN = false :=
      isNaN_eq_false_iff.mpr (value_eq_ofRat_iff.mp denoted).1.le
    by_cases zero : x.magnitudeBits = 0
    · -- Either zero is the integer zero, which is rounded to the positive one.
      have nothing : i.toInt = 0 := by
        rw [value_of_zero zero, Numeric.ofRat_inj] at denoted
        exact_mod_cast denoted.symm
      have rounded : ofInt 0 = ⟨0⟩ := by decide
      rw [toBinary64?, nothing, rounded, normalized, number, if_pos zero]
      rfl
    · rw [normalized_of_ne number zero, toBinary64?, ofInt_eq_of_value zero denoted]
  · rw [toBinary64?, ofOrderCode_orderCode, normalized, is]
    rfl
  · have canonical := Quantity.canonical_ofBinary64 x
    rw [form] at canonical
    rw [normalized_of_ne number (Quantity.magnitudeBits_ne_zero canonical), toBinary64?,
      ofOrderCode_orderCode]

/-- A stored code is equal to the key of the number it reads as. -/
theorem compare_ofBinary64_ofOrderCode (code : UInt64)
    : Ord.compare (Key.real code) (ofBinary64 (ofOrderCode code)) = .eq := by
  change compare _ _ = _
  rw [compare_eq_cmp, value_ofBinary64, cmp_eq_eq_iff]
  rfl

/-- The codes of keys of numbers are in the order of the keys. -/
theorem compare_real_of_ofBinary64 {x y : Binary64} {c d : UInt64} (left : ofBinary64 x = .real c)
    (right : ofBinary64 y = .real d)
    : Ord.compare c d = Ord.compare (Key.real c) (Key.real d) := by
  -- Only a canonical real is stored by its code.
  have stored {x : Binary64} {code : UInt64} (key : ofBinary64 x = .real code)
      : ∃ y : Binary64, (Quantity.real y).Canonical ∧ y.orderCode = code := by
    have canonical := Quantity.canonical_ofBinary64 x
    unfold ofBinary64 at key
    split at key
    next => contradiction
    next y form => exact ⟨y, form ▸ canonical, Key.real.inj key⟩
  obtain ⟨u, canonicalU, rfl⟩ := stored left
  obtain ⟨w, canonicalW, rfl⟩ := stored right
  change _ = compare _ _
  rw [Quantity.compare_real canonicalU canonicalW, compare_eq_cmp, value, value,
    strictMono_number.cmp_map_eq, ofOrderCode_orderCode, ofOrderCode_orderCode]

/-- An integer key reads as the number nearest to it. -/
theorem nearest_int (i : Int64) : Nearest i.toInt (ofInt i.toInt) := by
  have low := i.le_toInt
  have high := i.toInt_lt
  refine nearest_ofInt ?_
  rcases Nat.eq_zero_or_pos i.toInt.natAbs with zero | positive
  · rw [zero]
    decide
  · have width : i.toInt.natAbs.log2 < 64 := (Nat.log2_lt positive.ne').mpr (by omega)
    omega

/-- Numeric keys never read as numbers in the opposite order, as no number lies between an integer
and the number nearest to it.
-/
theorem value_le_of_le {a b : Key} {x y : Binary64} (left : a.toBinary64? = some x)
    (right : b.toBinary64? = some y) (le : a.value ≤ b.value)
    : x.value ≤ y.value := by
  cases a with
  | int i =>
      obtain rfl := Option.some.inj left
      cases b with
      | int j =>
          obtain rfl := Option.some.inj right
          have le : Numeric.ofRat i.toInt ≤ .ofRat j.toInt := strictMono_number.le_iff_le.mp le
          rw [Numeric.ofRat_le_ofRat] at le
          rcases le.lt_or_eq with less | same
          · rw [(nearest_int i).value_eq, (nearest_int j).value_eq, Numeric.ofRat_le_ofRat]
            exact (nearest_int i).toRat_le (nearest_int j) less
          · rw [Int.cast_injective same]
      | real code =>
          obtain rfl := Option.some.inj right
          exact (nearest_int i).le_value (strictMono_number.le_iff_le.mp le)
      | _ => contradiction
  | real code =>
      obtain rfl := Option.some.inj left
      cases b with
      | int j =>
          obtain rfl := Option.some.inj right
          exact (nearest_int j).value_le (strictMono_number.le_iff_le.mp le)
      | real other =>
          obtain rfl := Option.some.inj right
          exact strictMono_number.le_iff_le.mp le
      | _ => contradiction
  | _ => contradiction

/-- Codes and numbers correspond. A number reads back from its key as it is normalized, and denotes
what it did; a stored code is equal to the key of what it reads as, with the same digest; and codes
of keys of numbers are in the order of the keys. Integers read as the nearest number, and no keys of
numbers that are in order read as numbers that are not.
-/
theorem conversions_cohere
    : (∀ x : Binary64, ofOrderCode x.orderCode = x)
      ∧ (∀ code : UInt64, (ofOrderCode code).orderCode = code)
      ∧ (∀ x : Binary64, (ofBinary64 x).toBinary64? = some x.normalized
          ∧ x.normalized.value = x.value)
      ∧ (∀ code : UInt64, ∃ x, (Key.real code).toBinary64? = some x
          ∧ Ord.compare (Key.real code) (ofBinary64 x) = .eq
          ∧ (Key.real code).digest = (ofBinary64 x).digest)
      ∧ (∀ (x y : Binary64) (c d : UInt64), ofBinary64 x = .real c → ofBinary64 y = .real d
          → Ord.compare c d = Ord.compare (Key.real c) (Key.real d))
      ∧ (∀ i : Int64, ∃ x, (Key.int i).toBinary64? = some x ∧ Nearest i.toInt x)
      ∧ ∀ (a b : Key) (x y : Binary64), a.toBinary64? = some x → b.toBinary64? = some y
          → x.isNaN = false → y.isNaN = false → (Ord.compare a b).isLE = true
          → (x.partialCompare y).any (·.isLE) = true := by
  refine ⟨ofOrderCode_orderCode, orderCode_ofOrderCode, fun x => ?_, fun code => ?_, ?_, ?_, ?_⟩
  · exact ⟨toBinary64?_ofBinary64 x, x.value_normalized⟩
  · have equal := compare_ofBinary64_ofOrderCode code
    exact ⟨_, rfl, equal, digest_eq_of_compare_eq equal⟩
  · intro x y c d left right
    exact compare_real_of_ofBinary64 left right
  · intro i
    exact ⟨_, rfl, nearest_int i⟩
  · intro a b x y left right numberX numberY le
    change (compare a b).isLE = true at le
    rw [compare_eq_cmp, isLE_cmp_iff] at le
    rw [partialCompare_eq numberX numberY, Option.any_some, isLE_cmp_iff]
    exact value_le_of_le left right le

/-- The greatest integer is below two to the power of 63 and reads as it, and the codes of two and a
half and three and a half are in order.
-/
theorem greatest_integer_reads_as_twoPow63
    : Ord.compare (Key.int Int64.maxValue) (ofBinary64 .twoPow63) = .lt
      ∧ (Key.int Int64.maxValue).toBinary64? = some .twoPow63
      ∧ (twoPow63.partialCompare .twoPow63).any (·.isLE) = true
      ∧ Ord.compare (Binary64.orderCode ⟨0x4004000000000000⟩)
          (Binary64.orderCode ⟨0x400c000000000000⟩) = .lt := by
  obtain ⟨_, _, _, _, codes, _, monotone⟩ := conversions_cohere
  have below : Ord.compare (Key.int Int64.maxValue) (ofBinary64 .twoPow63) = .lt := by
    decide +kernel
  have read : (Key.int Int64.maxValue).toBinary64? = some .twoPow63 := by decide +kernel
  have kept : (ofBinary64 .twoPow63).toBinary64? = some .twoPow63 := by decide +kernel
  refine ⟨below, read, ?_, ?_⟩
  · exact monotone _ _ _ _ read kept (by decide) (by decide) (by rw [below]; rfl)
  · rw [codes ⟨0x4004000000000000⟩ ⟨0x400c000000000000⟩ _ _ (by decide +kernel) (by decide +kernel)]
    decide +kernel

end Key

end PagedIndex
