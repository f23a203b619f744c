import PagedIndex.Key.Json
import PagedIndex.Proofs.Json.Numbers
import PagedIndex.Proofs.Key.Order

/-! Keys of JSON numbers. An integer that fits is kept exactly and any other number becomes the
nearest binary64, so a number has a key of its own value unless it is an integer from two to the
power of 63 on that has more significant bits than a significand. Such an integer goes to the
nearest multiple of 2048, which is as far apart as the binary64 numbers are there. So keys of
numbers are never in the opposite order, but numbers that are apart can have equal keys.
-/

namespace PagedIndex

open Binary64 Json

/-! ## Rounding from two to the power of 63 on -/

/-- A number as its key has it: below two to the power of 63 as it is, and from there on the nearest
multiple of 2048.
-/
def coarsened (q : ℚ) : ℚ :=
  if q < 2 ^ 63 then q else (roundHalfEven ⌊q⌋₊ 2048 * 2048 : Nat)

theorem coarsened_of_lt {q : ℚ} (small : q < 2 ^ 63) : coarsened q = q := if_pos small

theorem coarsened_natCast {n : Nat} (large : 2 ^ 63 ≤ n)
    : coarsened n = (roundHalfEven n 2048 * 2048 : Nat) := by
  have above : ¬(n : ℚ) < 2 ^ 63 := by exact_mod_cast not_lt.mpr large
  rw [coarsened, if_neg above, Nat.floor_natCast]

/-- A multiple of 2048 is not changed. -/
theorem coarsened_mul (n : Nat) : coarsened (n * 2048 : Nat) = (n * 2048 : Nat) := by
  by_cases small : n * 2048 < 2 ^ 63
  · exact coarsened_of_lt (by exact_mod_cast small)
  · rw [coarsened_natCast (not_lt.mp small), roundHalfEven_mul n (by decide)]

theorem le_coarsened_of_le {q : ℚ} (large : 2 ^ 63 ≤ q) : 2 ^ 63 ≤ coarsened q := by
  have floor : 2 ^ 63 ≤ ⌊q⌋₊ := Nat.le_floor (by exact_mod_cast large)
  have units := roundHalfEven_mono 2048 floor
  have exact : roundHalfEven (2 ^ 63) 2048 = 2 ^ 52 := by decide
  rw [coarsened, if_neg (not_lt.mpr large)]
  have : 2 ^ 63 ≤ roundHalfEven ⌊q⌋₊ 2048 * 2048 := by
    simp only [exact] at units
    omega
  exact_mod_cast this

theorem coarsened_mono : Monotone coarsened := by
  intro p q le
  by_cases small : q < 2 ^ 63
  · rw [coarsened_of_lt small, coarsened_of_lt (le.trans_lt small)]
    exact le
  by_cases below : p < 2 ^ 63
  · rw [coarsened_of_lt below]
    exact below.le.trans (le_coarsened_of_le (not_lt.mp small))
  · rw [coarsened, coarsened, if_neg below, if_neg small]
    exact_mod_cast Nat.mul_le_mul_right 2048 (roundHalfEven_mono 2048 (Nat.floor_mono le))

namespace Binary64

/-- From two to the power of 63 on, every number is a multiple of 2048. -/
theorem exists_mul_of_le {bits : Nat} (large : 2 ^ 63 ≤ magnitude bits)
    : ∃ n : Nat, magnitude bits = (n * 2048 : Nat) :=
  exists_mul_two_pow (k := 11) large

theorem coarsened_toRat (x : Binary64) : coarsened x.toRat = x.toRat := by
  by_cases small : x.toRat < 2 ^ 63
  · exact coarsened_of_lt small
  have large := not_lt.mp small
  rw [toRat_eq] at large ⊢
  split at large
  next negative =>
    have nonnegative : 0 ≤ magnitude x.magnitudeBits := by
      unfold magnitude
      positivity
    exact absurd large (not_le.mpr (by linarith))
  next positive =>
    obtain ⟨n, multiple⟩ := exists_mul_of_le large
    rw [if_neg positive, multiple, coarsened_mul]

/-- The number nearest to an integer that is too large for `Int64` and has sixty-four bits. -/
theorem value_ofInt_of_large {n : Nat} (large : 2 ^ 63 ≤ n) (word : n < 2 ^ 64)
    : (ofInt n).value = .ofRat (coarsened n) := by
  have nonzero : n ≠ 0 := by omega
  have width : n.log2 = 63 :=
    Nat.le_antisymm (Nat.lt_succ_iff.mp ((Nat.log2_lt nonzero).mpr word))
      ((Nat.le_log2 nonzero).mpr large)
  obtain ⟨finite, nearest⟩ := magnitude_nearest_of_large (by omega : 2 ^ 53 ≤ n) (by omega)
  rw [width, show 2 ^ (63 - 52) = 2048 from rfl] at nearest
  have same : (ofInt n).magnitudeBits = nearestMagnitude n 1 := magnitudeBits_ofInt n
  have positive : ¬(ofInt n).isNegative = true := by
    rw [isNegative_ofInt]
    omega
  rw [value_of_finite (same ▸ finite), toRat_eq, if_neg positive, same, nearest,
    coarsened_natCast large]

end Binary64

/-! ## Numbers held of numerals -/

namespace Json

/-- An integer that is rounded as a key. -/
def Number.Coarse : Number → Prop
  | natural n => 2 ^ 63 ≤ n.toNat ∧ ¬2048 ∣ n.toNat
  | _ => False

theorem Number.coarsened_value {a : Number} (fine : ¬a.Coarse) : coarsened a.value = a.value := by
  cases a with
  | natural n =>
      by_cases large : 2 ^ 63 ≤ n.toNat
      · obtain ⟨m, multiple⟩ : 2048 ∣ n.toNat := by
          by_contra apart
          exact fine ⟨large, apart⟩
        have multiple : n.toNat = m * 2048 := by omega
        rw [value, multiple, coarsened_mul]
      · have small : (n.toNat : ℚ) < 2 ^ 63 := by exact_mod_cast not_le.mp large
        exact coarsened_of_lt small
  | negative i below =>
      have below : (i.toInt : ℚ) < 0 := by exact_mod_cast below
      exact coarsened_of_lt (below.trans (by norm_num))
  | real x finite => exact coarsened_toRat x

namespace Numeral

variable {n : Numeral}

/-- A numeral that spells an integer is rounded as this integer is. -/
theorem toBinary64_of_toInt? {i : Int} (spelled : n.toInt? = some i)
    : n.toBinary64 = .ofInt i := by
  obtain ⟨negative, digits, places, exponent⟩ := n
  simp only [toInt?] at spelled
  split at spelled
  next => contradiction
  next plain =>
    simp only [Bool.or_eq_true, not_or, Bool.not_eq_true, Option.isSome_eq_false_iff,
      Option.isNone_iff_eq_none] at plain
    obtain ⟨⟨rfl, rfl⟩, signed⟩ := plain
    have signs : decide (i < 0) = negative := by
      obtain rfl := Option.some.inj spelled
      cases negative <;> simp at signed ⊢
      omega
    have size : i.natAbs = digits := by
      obtain rfl := Option.some.inj spelled
      cases negative <;> simp
    rw [Binary64.ofInt, signs, size]
    by_cases zero : digits = 0
    · rw [toBinary64, ofDecimal, if_pos (Or.inl zero), zero]
    · -- Without a point or an exponent the power of ten is one.
      have near : ¬(digits = 0 ∨ (0 : Int) + (digits.log2 / 3 + 1 : Nat) < -400) := by omega
      have one : digits * Nat.pow 10 (0 : Int).toNat = digits := Nat.mul_one digits
      change ofDecimal negative digits 0 = _
      rw [ofDecimal, if_neg near, if_neg (by decide), one]
      rfl

end Numeral

end Json

/-! ## Keys -/

namespace Key

open Json

theorem int64?_of_toInt? {n : Numeral} {i : Int} (spelled : n.toInt? = some i)
    (low : -2 ^ 63 ≤ i) (high : i < 2 ^ 63)
    : (Value.number n).int64? = some (Int64.ofInt i) := by
  have between : decide (Int64.minValue.toInt ≤ i ∧ i ≤ Int64.maxValue.toInt) = true := by
    rw [Int64.toInt_minValue, Int64.toInt_maxValue, decide_eq_true_eq]
    omega
  simp only [Value.int64?, Value.intBetween?, spelled, Option.filter_some, between, if_true,
    Option.map_some]

theorem int64?_eq_none {n : Numeral}
    (outside : ∀ i, n.toInt? = some i → i < -2 ^ 63 ∨ 2 ^ 63 ≤ i)
    : (Value.number n).int64? = none := by
  cases spelled : n.toInt? with
  | none =>
      simp only [Value.int64?, Value.intBetween?, spelled, Option.filter_none, Option.map_none]
  | some i =>
      have beyond : ¬decide (Int64.minValue.toInt ≤ i ∧ i ≤ Int64.maxValue.toInt) = true := by
        have := outside i spelled
        rw [Int64.toInt_minValue, Int64.toInt_maxValue, decide_eq_true_eq]
        omega
      simp only [Value.int64?, Value.intBetween?, spelled, Option.filter_some, beyond, if_false,
        Option.map_none, Bool.false_eq_true]

/-- A number has a key, which denotes the number as it is rounded. -/
theorem exists_key_of_held {n : Numeral} {a : Number} (held : n.held? = some a)
    : ∃ k, ofScalar? (.number n) = some k
        ∧ k.value = Sum.inrₗ (Sum.inrₗ (Sum.inlₗ (.ofRat (coarsened a.value)))) := by
  rcases Numeral.held?_cases held with ⟨i, spelled, low, high, same⟩ | ⟨outside, finite, rfl⟩
  · by_cases fits : i < 2 ^ 63
    · have small : (i : ℚ) < 2 ^ 63 := by exact_mod_cast fits
      refine ⟨.int (Int64.ofInt i), ?_, ?_⟩
      · simp only [ofScalar?, int64?_of_toInt? spelled low fits]
      · rw [same, coarsened_of_lt small, value, Int64.toInt_ofInt_of_le low fits]
    · -- Only such an integer is rounded.
      obtain ⟨m, rfl⟩ := Int.eq_ofNat_of_zero_le (show 0 ≤ i by omega)
      have none := int64?_eq_none (n := n) fun j other => by
        obtain rfl : (m : Int) = j := Option.some.inj (spelled.symm.trans other)
        omega
      refine ⟨.ofBinary64 n.toBinary64, ?_, ?_⟩
      · simp only [ofScalar?, none]
      · rw [value_ofBinary64, Numeral.toBinary64_of_toInt? spelled,
          value_ofInt_of_large (by omega) (by omega), same, Int.cast_natCast]
  · have none := int64?_eq_none (n := n) fun i spelled => by
      have := outside i spelled
      omega
    refine ⟨.ofBinary64 n.toBinary64, ?_, ?_⟩
    · simp only [ofScalar?, none]
    · rw [value_ofBinary64, value_of_finite finite, Number.value, coarsened_toRat]

/-- For all numbers, whatever numerals they are held of, the keys compare as the numbers do once
they are rounded, hence as the numbers themselves if neither is coarse. In any case greater numbers
do not have lesser keys, and equal numbers have equal keys.
-/
theorem order_of_numbers (a b : Number)
    : (∃ m n : Numeral, m.held? = some a ∧ n.held? = some b)
      ∧ ∀ m n : Numeral, m.held? = some a → n.held? = some b
        → ∃ k l, ofScalar? (.number m) = some k ∧ ofScalar? (.number n) = some l
            ∧ Ord.compare k l = cmp (coarsened a.value) (coarsened b.value)
            ∧ (¬a.Coarse → ¬b.Coarse → Ord.compare k l = cmp a.value b.value)
            ∧ (a.value ≤ b.value → (Ord.compare k l).isLE = true)
            ∧ (a.value = b.value → Ord.compare k l = .eq) := by
  refine ⟨⟨_, _, Numeral.held?_ofNumber a, Numeral.held?_ofNumber b⟩, fun m n heldA heldB => ?_⟩
  obtain ⟨k, keyK, denotedK⟩ := exists_key_of_held heldA
  obtain ⟨l, keyL, denotedL⟩ := exists_key_of_held heldB
  have rounded : Ord.compare k l = cmp (coarsened a.value) (coarsened b.value) := by
    have mono : StrictMono Numeric.ofRat := fun _ _ => Numeric.ofRat_lt_ofRat.mpr
    change compare k l = _
    rw [compare_eq_cmp, denotedK, denotedL, strictMono_number.cmp_map_eq, mono.cmp_map_eq]
  refine ⟨k, l, keyK, keyL, rounded, fun fineA fineB => ?_, fun le => ?_, fun same => ?_⟩
  · rw [rounded, Number.coarsened_value fineA, Number.coarsened_value fineB]
  · rw [rounded, isLE_cmp_iff]
    exact coarsened_mono le
  · rw [rounded, same, cmp_self_eq_eq]

/-- Seven and two and a half are not rounded. -/
theorem order_of_seven_and_fraction
    : ∃ k l, ofScalar? (.ofNat 7) = some k
        ∧ ofScalar? (.number { Numeral.ofNat 25 with places := some 1 }) = some l
        ∧ Ord.compare k l
          = cmp (Number.natural 7).value (Number.real ⟨0x4004000000000000⟩ (by decide)).value := by
  have held : ({ Numeral.ofNat 25 with places := some 1 } : Numeral).held?
      = some (.real ⟨0x4004000000000000⟩ (by decide)) :=
    Numeral.heldReal?_eq_some_iff.mpr (by decide +kernel)
  obtain ⟨k, l, keyK, keyL, _, fine, _⟩ := (order_of_numbers (.natural 7) (.real _ _)).2
    (Numeral.ofNat 7) _ (Numeral.held?_ofNumber (.natural 7)) held
  exact ⟨k, l, keyK, keyL, fine (fun coarse => absurd coarse.1 (by decide)) (fun coarse => coarse)⟩

/-- Two to the power of 63 and the next integer have equal keys. -/
theorem large_integers_share_key
    : ¬∀ (a b : Number) (m n : Numeral), m.held? = some a → n.held? = some b
        → ∃ k l, ofScalar? (.number m) = some k ∧ ofScalar? (.number n) = some l
            ∧ Ord.compare k l = cmp a.value b.value := by
  intro exact
  have keys : ofScalar? (.ofNat 9223372036854775809) = ofScalar? (.ofNat 9223372036854775808) := by
    decide +kernel
  obtain ⟨k, l, keyK, keyL, order⟩ := exact (.natural 9223372036854775809)
    (.natural 9223372036854775808) _ _ (Numeral.held?_ofNumber _) (Numeral.held?_ofNumber _)
  obtain rfl : k = l := Option.some.inj (keyK.symm.trans (Eq.trans keys keyL))
  have apart : (Number.natural 9223372036854775809).value
      = (Number.natural 9223372036854775808).value := by
    rw [← cmp_eq_eq_iff, ← order]
    exact Std.ReflCmp.compare_self
  have same : (9223372036854775809 : UInt64).toNat = (9223372036854775808 : UInt64).toNat :=
    Nat.cast_injective (R := ℚ) apart
  exact absurd same (by decide)

end Key

end PagedIndex
