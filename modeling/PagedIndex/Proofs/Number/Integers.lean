import PagedIndex.Number.Rounding
import PagedIndex.Proofs.Number.Value

/-! Integers among the binary64 numbers. A number with a fractional part is below two to the power
of 52, and rounding an integer changes it only beyond two to the power of 53, so the comparison of
such a number with a rounded integer is that with the integer itself.
-/

namespace PagedIndex.Binary64

/-! ## Numbers that are integers -/

theorem two_zpow_eq (z : Int) : (2 : ℚ) ^ z = 2 ^ z.toNat / 2 ^ (-z).toNat := by
  rw [eq_div_iff (by positivity), ← zpow_natCast, ← zpow_natCast, ← zpow_add₀ two_ne_zero]
  congr 1
  omega

theorem toRat_eq_div (x : Binary64) : x.toRat = x.numerator / x.denominator := by
  rw [toRat, two_zpow_eq, numerator, denominator, Nat.shiftLeft_eq, Nat.shiftLeft_eq]
  push_cast
  ring

theorem denominator_pos (x : Binary64) : 0 < x.denominator := by
  rw [denominator, Nat.shiftLeft_eq]
  positivity

theorem floor_eq (x : Binary64) : x.floor = ⌊x.toRat⌋ := by
  rw [toRat_eq_div, floor, Rat.floor_intCast_div_natCast]

/-- A finite number is an integer if it is its own floor. -/
theorem floor_mul_denominator_iff (x : Binary64)
    : x.floor * x.denominator = x.numerator ↔ (x.floor : ℚ) = x.toRat := by
  have positive : (x.denominator : ℚ) ≠ 0 := by exact_mod_cast x.denominator_pos.ne'
  rw [toRat_eq_div, eq_div_iff positive]
  exact_mod_cast Iff.rfl

/-- The integer that a number is found to be is what it denotes, and it is always found. -/
theorem toInt?_eq_some_iff {x : Binary64} {i : Int} : x.toInt? = some i ↔ x.value = .ofRat i := by
  unfold toInt? value
  cases x.isNaN with
  | true => simp [Numeric.nan, Numeric.ofRat]
  | false =>
      cases x.isInfinite with
      | true =>
          simp only [Bool.or_true, if_true, Bool.false_eq_true, if_false, reduceCtorEq, false_iff]
          split
          · exact (Numeric.negInfinity_lt_ofRat _).ne
          · exact (Numeric.ofRat_lt_posInfinity _).ne'
      | false =>
          simp only [Bool.or_self, Bool.false_eq_true, if_false, floor_mul_denominator_iff,
            Numeric.ofRat_inj]
          constructor
          · intro found
            split at found
            next whole => rw [← whole, Option.some.inj found]
            next => contradiction
          · intro whole
            have floor : x.floor = i := by rw [floor_eq, whole, Int.floor_intCast]
            rw [floor, whole, if_pos rfl]

/-- The signed bits of two to the power of 52 and beyond are those of integers. -/
theorem exists_int_eq_toRat {x : Binary64} (large : 1075 * leadingBit ≤ x.magnitudeBits)
    : ∃ i : Int, x.toRat = i := by
  have field : 1075 ≤ x.exponentField := (Nat.le_div_iff_mul_le (by decide)).mpr large
  have scale : 0 ≤ x.scale := by
    unfold Binary64.scale
    omega
  obtain ⟨n, exact⟩ := Int.eq_ofNat_of_zero_le scale
  refine ⟨x.signedSignificand * 2 ^ n, ?_⟩
  rw [toRat, exact]
  push_cast
  exact congrArg _ (zpow_natCast _ _)

/-! ## Rounding integers -/

theorem floorLog2_one {n : Nat} (nonzero : n ≠ 0) : floorLog2 n 1 = n.log2 := by
  have one : Nat.log2 1 = 0 := by decide
  have fits : 1 <<< n.log2 ≤ n := by
    rw [Nat.one_shiftLeft]
    exact Nat.log2_self_le nonzero
  simp [floorLog2, one, fits]

theorem roundHalfEven_one (n : Nat) : roundHalfEven n 1 = n := by
  simp [roundHalfEven, Nat.mod_one]

theorem le_roundHalfEven (num den : Nat) : num / den ≤ roundHalfEven num den := by
  simp only [roundHalfEven]
  split
  · exact le_refl _
  · split <;> omega

/-- A significand of fifty-three bits that is added to the bits of a binade lands in the next. -/
theorem magnitude_add {field significand : Nat} (low : leadingBit ≤ significand)
    (high : significand < 2 * leadingBit)
    : magnitude (field * leadingBit + significand)
      = significand * 2 ^ ((field : Int) + 1 - 1075) := by
  have quotient : (field * leadingBit + significand) / leadingBit = field + 1 := by
    unfold leadingBit at *
    omega
  have remainder : (field * leadingBit + significand) % leadingBit = significand - leadingBit := by
    unfold leadingBit at *
    omega
  rw [magnitude, quotient, remainder, if_neg (Nat.succ_ne_zero _), Nat.sub_add_cancel low,
    Nat.max_eq_left (Nat.le_add_left _ _)]
  push_cast
  rfl

/-- An integer below two to the power of 53 is not changed by rounding. -/
theorem magnitude_nearest {n : Nat} (small : n < 2 ^ 53)
    : magnitude (nearestMagnitude n 1) = n := by
  by_cases zero : n = 0
  · simp [zero, nearestMagnitude]
  have width : n.log2 ≤ 52 := Nat.lt_succ_iff.mp ((Nat.log2_lt zero).mpr small)
  have quantum : quantum n 1 = -((52 - n.log2 : Nat) : Int) := by
    rw [quantum, floorLog2_one zero]
    omega
  have low : leadingBit ≤ n * 2 ^ (52 - n.log2) := by
    calc leadingBit = 2 ^ n.log2 * 2 ^ (52 - n.log2) := by
          rw [← pow_add, Nat.add_sub_cancel' width]
          rfl
      _ ≤ n * 2 ^ (52 - n.log2) := Nat.mul_le_mul_right _ (Nat.log2_self_le zero)
  have high : n * 2 ^ (52 - n.log2) < 2 * leadingBit := by
    calc n * 2 ^ (52 - n.log2) < 2 ^ (n.log2 + 1) * 2 ^ (52 - n.log2) :=
          Nat.mul_lt_mul_of_pos_right Nat.lt_log2_self (by positivity)
      _ = 2 * leadingBit := by
          rw [← pow_add, show n.log2 + 1 + (52 - n.log2) = 53 by omega]
          rfl
  have nearest : nearestMagnitude n 1
      = (n.log2 + 1022) * leadingBit + n * 2 ^ (52 - n.log2) := by
    simp only [nearestMagnitude, zero, if_false, quantum]
    rw [show (-((52 - n.log2 : Nat) : Int)).toNat = 0 by omega,
      show (- -((52 - n.log2 : Nat) : Int)).toNat = 52 - n.log2 by omega,
      show (-((52 - n.log2 : Nat) : Int) + 1074).toNat = n.log2 + 1022 by omega,
      Nat.shiftLeft_zero, roundHalfEven_one, Nat.shiftLeft_eq]
    refine Nat.min_eq_left ?_
    have infinity : infinityBits.toNat = 2047 * leadingBit := rfl
    unfold leadingBit at *
    omega
  have unit : (2 : ℚ) ^ (((n.log2 + 1022 : Nat) : Int) + 1 - 1075) = (2 ^ (52 - n.log2))⁻¹ := by
    rw [← zpow_natCast, ← zpow_neg]
    exact congrArg (fun z : Int => (2 : ℚ) ^ z) (by omega)
  rw [nearest, magnitude_add low high, unit]
  push_cast
  rw [mul_assoc, mul_inv_cancel₀ (by positivity), mul_one]

/-- Any other integer is rounded to a number that is not below two to the power of 53. -/
theorem le_nearestMagnitude {n : Nat} (large : 2 ^ 53 ≤ n)
    : 1076 * leadingBit ≤ nearestMagnitude n 1 := by
  have nonzero : n ≠ 0 := by omega
  have width : 53 ≤ n.log2 := (Nat.le_log2 nonzero).mpr large
  have quantum : quantum n 1 = ((n.log2 - 52 : Nat) : Int) := by
    rw [quantum, floorLog2_one nonzero]
    omega
  have units : leadingBit ≤ roundHalfEven n (2 ^ (n.log2 - 52)) := by
    refine le_trans ?_ (le_roundHalfEven _ _)
    rw [Nat.le_div_iff_mul_le (by positivity)]
    calc leadingBit * 2 ^ (n.log2 - 52) = 2 ^ n.log2 := by
          rw [show leadingBit = 2 ^ 52 from rfl, ← pow_add, Nat.add_sub_cancel' (by omega)]
      _ ≤ n := Nat.log2_self_le nonzero
  simp only [nearestMagnitude, nonzero, if_false, quantum]
  rw [show (-((n.log2 - 52 : Nat) : Int)).toNat = 0 by omega, Int.toNat_natCast, Nat.shiftLeft_zero,
    Nat.one_shiftLeft]
  refine le_min ?_ (by decide)
  unfold leadingBit at *
  omega

theorem nearestMagnitude_le (num den : Nat) : nearestMagnitude num den ≤ infinityBits.toNat := by
  unfold nearestMagnitude
  split
  · exact Nat.zero_le _
  · exact Nat.min_le_right _ _

/-- The bits of a rounded ratio are those of its magnitude and its sign. -/
theorem bits_ofRatio (negative : Bool) (num den : Nat)
    : (ofRatio negative num den).bits.toNat
      = nearestMagnitude num den + if negative then signBit.toNat else 0 := by
  have bound := nearestMagnitude_le num den
  have infinity : infinityBits.toNat < signBit.toNat := by decide
  have size : UInt64.size = 2 * signBit.toNat := rfl
  refine UInt64.toNat_ofNat_of_lt' ?_
  split <;> omega

theorem magnitudeBits_ofInt (i : Int) : (ofInt i).magnitudeBits = nearestMagnitude i.natAbs 1 := by
  have bound : nearestMagnitude i.natAbs 1 < signBit.toNat :=
    lt_of_le_of_lt (nearestMagnitude_le _ _) (by decide)
  rw [magnitudeBits, ofInt, bits_ofRatio]
  split
  · rw [Nat.add_mod_right, Nat.mod_eq_of_lt bound]
  · rw [Nat.add_zero, Nat.mod_eq_of_lt bound]

theorem isNegative_ofInt (i : Int) : (ofInt i).isNegative = true ↔ i < 0 := by
  have bound : nearestMagnitude i.natAbs 1 < signBit.toNat :=
    lt_of_le_of_lt (nearestMagnitude_le _ _) (by decide)
  rw [isNegative_iff, ofInt, bits_ofRatio]
  by_cases negative : i < 0
  · simp [negative]
  · simp only [negative, decide_false, Bool.false_eq_true, if_false, iff_false]
    omega

theorem isNaN_ofInt (i : Int) : (ofInt i).isNaN = false := by
  rw [isNaN_eq_false_iff, magnitudeBits_ofInt]
  exact nearestMagnitude_le _ _

theorem signedBits_ofInt (i : Int)
    : (ofInt i).signedBits
      = if i < 0 then -(nearestMagnitude i.natAbs 1 : Int) else nearestMagnitude i.natAbs 1 := by
  simp only [signedBits, isNegative_ofInt, magnitudeBits_ofInt]

/-- The bits of two to the power of 53. -/
theorem magnitude_twoPow53 : magnitude (1076 * leadingBit) = 2 ^ 53 := by
  have split : 1076 * leadingBit = 1075 * leadingBit + leadingBit := by decide
  rw [split, magnitude_add (le_refl _) (by decide)]
  norm_num [leadingBit]

/-- An integer below two to the power of 53 on either side is a number of its own. -/
theorem value_ofInt {i : Int} (small : i.natAbs < 2 ^ 53) : (ofInt i).value = .ofRat i := by
  have exact := magnitude_nearest small
  have low : nearestMagnitude i.natAbs 1 < 1076 * leadingBit := by
    rw [← strictMono_magnitude.lt_iff_lt, exact, magnitude_twoPow53]
    exact_mod_cast small
  have finite : (ofInt i).magnitudeBits < infinityBits.toNat := by
    rw [magnitudeBits_ofInt]
    exact lt_trans low (by decide)
  rw [value_of_finite finite, toRat_eq, magnitudeBits_ofInt, exact, Numeric.ofRat_inj]
  by_cases negative : i < 0
  · rw [if_pos ((isNegative_ofInt i).mpr negative), Nat.cast_natAbs, abs_of_neg negative]
    push_cast
    ring
  · rw [if_neg fun is => negative ((isNegative_ofInt i).mp is), Nat.cast_natAbs,
      abs_of_nonneg (by omega)]

/-! ## Comparing with rounded integers -/

/-- The rounding of an integer does not matter in a comparison with a number that is below two to
the power of 52 on either side, as every number with a fractional part is.
-/
theorem partialCompare_ofInt (i : Int) {x : Binary64} (small : x.magnitudeBits < 1075 * leadingBit)
    : (ofInt i).partialCompare x = some (cmp (.ofRat i) x.value) := by
  have infinity : infinityBits.toNat = 2047 * leadingBit := rfl
  have number : x.isNaN = false := isNaN_eq_false_iff.mpr (by omega)
  have valued : x.value = .ofRat (ratOf x.signedBits) := by
    rw [value_of_finite (by omega), toRat_eq_ratOf]
  have low : -(1075 * leadingBit : Int) < x.signedBits ∧ x.signedBits < 1075 * leadingBit := by
    unfold signedBits
    split <;> omega
  rw [partialCompare_eq (isNaN_ofInt i) number, Option.some.injEq]
  by_cases exact : i.natAbs < 2 ^ 53
  · rw [value_ofInt exact]
  have large := le_nearestMagnitude (not_lt.mp exact)
  -- An integer that is changed stays beyond all such numbers.
  rw [cmp_value (isNaN_ofInt i) number, signedBits_ofInt, valued]
  have bound : ratOf (1076 * leadingBit) = 2 ^ 53 := magnitude_twoPow53
  by_cases negative : i < 0
  · have below : ratOf (-(1076 * leadingBit)) = -2 ^ 53 := by
      rw [← magnitude_twoPow53]
      rfl
    have under : (i : ℚ) ≤ -2 ^ 53 := by exact_mod_cast (by omega : i ≤ -2 ^ 53)
    rw [if_pos negative, (cmp_eq_lt_iff _ _).mpr (by omega), eq_comm, cmp_eq_lt_iff,
      Numeric.ofRat_lt_ofRat]
    calc (i : ℚ) ≤ ratOf (-(1076 * leadingBit)) := below ▸ under
      _ < ratOf x.signedBits := strictMono_ratOf (by omega)
  · have above : (2 ^ 53 : ℚ) ≤ i := by exact_mod_cast (by omega : 2 ^ 53 ≤ i)
    rw [if_neg negative, (cmp_eq_gt_iff _ _).mpr (by omega), eq_comm, cmp_eq_gt_iff,
      Numeric.ofRat_lt_ofRat]
    calc ratOf x.signedBits < ratOf (1076 * leadingBit) := strictMono_ratOf (by omega)
      _ ≤ (i : ℚ) := bound ▸ above

end PagedIndex.Binary64
