import PagedIndex.Proofs.Number.Integers

/-! Rounding to binary64 numbers. A ratio that is a binary64 number already is not changed, so every
finite number is read back from its exact decimal expansion. An integer of more than fifty-three
bits goes to the nearest multiple of a power of two, a half to the even one.
-/

namespace PagedIndex

/-! ## Rounding to whole numbers -/

theorem roundHalfEven_le (num den : Nat) : roundHalfEven num den ≤ num / den + 1 := by
  simp only [roundHalfEven]
  split
  · omega
  · split <;> omega

theorem roundHalfEven_mul (n : Nat) {den : Nat} (positive : 0 < den)
    : roundHalfEven (n * den) den = n := by
  simp only [roundHalfEven]
  rw [Nat.mul_mod_left, if_pos (by omega), Nat.mul_div_cancel n positive]

/-- A greater ratio is never rounded to less. -/
theorem roundHalfEven_mono (den : Nat) : Monotone fun num => roundHalfEven num den := by
  intro num other le
  have quotients := Nat.div_le_div_right (c := den) le
  rcases quotients.lt_or_eq with below | same
  · calc roundHalfEven num den ≤ num / den + 1 := roundHalfEven_le num den
      _ ≤ other / den := below
      _ ≤ roundHalfEven other den := Binary64.le_roundHalfEven other den
  · -- Within one unit it is the remainders that are compared with a half.
    have whole := Nat.div_add_mod num den
    have whole' := Nat.div_add_mod other den
    rw [← same] at whole'
    have remainders : num % den ≤ other % den := by omega
    simp only [roundHalfEven, ← same]
    split
    · split
      · omega
      · split <;> omega
    · split
      · split
        · omega
        · split <;> omega
      · split
        · omega
        · split <;> omega

namespace Binary64

/-! ## Binary exponents -/

theorem shiftLeft_le_iff {num den : Nat} (positive : 0 < den) (z : Int)
    : den <<< z.toNat ≤ num <<< (-z).toNat ↔ (2 : ℚ) ^ z ≤ num / den := by
  rw [two_zpow_eq, Nat.shiftLeft_eq, Nat.shiftLeft_eq,
    div_le_div_iff₀ (by positivity) (by exact_mod_cast positive), mul_comm _ (den : ℚ)]
  exact_mod_cast Iff.rfl

/-- The binary exponent of a ratio is found, by the one comparison that is left to make. -/
theorem floorLog2_eq {num den : Nat} (nonzero : num ≠ 0) (positive : 0 < den)
    : floorLog2 num den = Int.log 2 (num / den : ℚ) := by
  have divisor : (0 : ℚ) < den := by exact_mod_cast positive
  have ratio : (0 : ℚ) < num / den := by positivity
  have numLow : (2 : ℚ) ^ num.log2 ≤ num := by exact_mod_cast Nat.log2_self_le nonzero
  have numHigh : (num : ℚ) < 2 ^ (num.log2 + 1) := by exact_mod_cast Nat.lt_log2_self
  have denLow : (2 : ℚ) ^ den.log2 ≤ den := by exact_mod_cast Nat.log2_self_le positive.ne'
  have denHigh : (den : ℚ) < 2 ^ (den.log2 + 1) := by exact_mod_cast Nat.lt_log2_self
  have quotient (m n : Nat) : (2 : ℚ) ^ m / 2 ^ n = 2 ^ ((m : Int) - n) := by
    rw [zpow_sub₀ two_ne_zero, zpow_natCast, zpow_natCast]
  have low : ((num.log2 : Int) - den.log2 - 1) ≤ Int.log 2 (num / den : ℚ) := by
    rw [← Int.zpow_le_iff_le_log one_lt_two ratio]
    calc ((2 : Nat) : ℚ) ^ ((num.log2 : Int) - den.log2 - 1)
      _ = 2 ^ num.log2 / 2 ^ (den.log2 + 1) := by
          rw [quotient]
          congr 1
          push_cast
          omega
      _ ≤ num / den := div_le_div₀ (by positivity) numLow divisor denHigh.le
  have high : Int.log 2 (num / den : ℚ) < (num.log2 : Int) - den.log2 + 1 := by
    rw [← Int.lt_zpow_iff_log_lt one_lt_two ratio]
    calc (num / den : ℚ)
      _ < 2 ^ (num.log2 + 1) / 2 ^ den.log2 :=
          div_lt_div₀ numHigh denLow (by positivity) (by positivity)
      _ = ((2 : Nat) : ℚ) ^ ((num.log2 : Int) - den.log2 + 1) := by
          rw [quotient]
          congr 1
          push_cast
          omega
  have decided := Int.zpow_le_iff_le_log (x := (num.log2 : Int) - den.log2) one_lt_two ratio
  rw [Nat.cast_ofNat, ← shiftLeft_le_iff positive] at decided
  simp only [floorLog2]
  split
  next reached =>
    have := decided.mp reached
    omega
  next short =>
    have : ¬(num.log2 : Int) - den.log2 ≤ Int.log 2 (num / den : ℚ) := fun le =>
      short (decided.mpr le)
    omega

/-! ## Numbers that are not changed -/

/-- The significands that go with a unit: in the lowest binade they are all that are too short for
the others.
-/
structure Fits (significand : Nat) (unit : Int) : Prop where
  nonzero : significand ≠ 0
  short : significand < 2 * leadingBit
  least : -1074 ≤ unit
  long : unit = -1074 ∨ leadingBit ≤ significand

/-- Bits are those of a significand and of the power of two that it counts. -/
theorem exists_fits {bits : Nat} (nonzero : bits ≠ 0)
    : ∃ significand unit, Fits significand unit ∧ magnitude bits = significand * 2 ^ unit
        ∧ bits = (unit + 1074).toNat * leadingBit + significand := by
  have whole := Nat.div_add_mod bits leadingBit
  have low := Nat.mod_lt bits (show 0 < leadingBit by decide)
  refine ⟨_, _, ?_, rfl, ?_⟩
  · split
    next subnormal =>
      rw [subnormal] at whole
      exact ⟨by omega, by omega, by omega, Or.inl (by omega)⟩
    next normal => exact ⟨by omega, by omega, by omega, Or.inr (by omega)⟩
  · split
    next subnormal =>
      rw [subnormal] at whole ⊢
      simp
      omega
    next normal =>
      unfold leadingBit at *
      omega

/-- The unit of a number is found from its value. -/
theorem Fits.quantum_eq {significand : Nat} {unit : Int} (h : Fits significand unit) {num den : Nat}
    (nonzero : num ≠ 0) (positive : 0 < den) (exact : (num : ℚ) / den = significand * 2 ^ unit)
    : quantum num den = unit := by
  have leading : leadingBit = 2 ^ 52 := rfl
  have low := Nat.log2_self_le h.nonzero
  have high := Nat.lt_log2_self (n := significand)
  have width : significand.log2 < 53 := (Nat.log2_lt h.nonzero).mpr h.short
  have exponent : floorLog2 num den = significand.log2 + unit := by
    have ratio : (0 : ℚ) < num / den := by positivity
    have cast (n : Nat) : ((2 : Nat) : ℚ) ^ ((n : Int) + unit) = 2 ^ n * 2 ^ unit := by
      rw [Nat.cast_ofNat, zpow_add₀ two_ne_zero, zpow_natCast]
    rw [floorLog2_eq nonzero positive]
    refine le_antisymm (Int.le_of_lt_add_one ?_) ?_
    · rw [← Int.lt_zpow_iff_log_lt one_lt_two ratio, exact, Int.add_right_comm, ← Nat.cast_succ,
        cast]
      exact mul_lt_mul_of_pos_right (by exact_mod_cast high) (by positivity)
    · rw [← Int.zpow_le_iff_le_log one_lt_two ratio, exact, cast]
      exact mul_le_mul_of_nonneg_right (by exact_mod_cast low) (by positivity)
  rw [quantum, exponent]
  rcases h.long with least | long
  · omega
  · have : 52 ≤ significand.log2 := (Nat.le_log2 h.nonzero).mpr long
    have := h.least
    omega

/-- Rounding leaves a number as it is. -/
theorem nearestMagnitude_of_eq {bits num den : Nat} (finite : bits < infinityBits.toNat)
    (positive : 0 < den) (exact : (num : ℚ) / den = magnitude bits)
    : nearestMagnitude num den = bits := by
  have divisor : (den : ℚ) ≠ 0 := by exact_mod_cast positive.ne'
  by_cases zero : num = 0
  · have nothing : magnitude 0 = magnitude bits := by simp [← exact, zero]
    rw [← strictMono_magnitude.injective nothing, nearestMagnitude, if_pos zero]
  have nonzero : bits ≠ 0 := by
    rintro rfl
    rw [magnitude_zero, div_eq_zero_iff] at exact
    simp [zero, divisor] at exact
  obtain ⟨significand, unit, fits, value, whole⟩ := exists_fits nonzero
  rw [value] at exact
  have scaled : num <<< (-unit).toNat = significand * den <<< unit.toNat := by
    rw [two_zpow_eq, ← mul_div_assoc, div_eq_div_iff divisor (by positivity)] at exact
    rw [Nat.shiftLeft_eq, Nat.shiftLeft_eq]
    have numbers : num * 2 ^ (-unit).toNat = significand * 2 ^ unit.toNat * den := by
      exact_mod_cast exact
    rw [numbers]
    ring
  have unitPositive : 0 < den <<< unit.toNat := by
    rw [Nat.shiftLeft_eq]
    positivity
  simp only [nearestMagnitude, zero, if_false, fits.quantum_eq zero positive exact]
  rw [scaled, roundHalfEven_mul _ unitPositive, ← whole, Nat.min_eq_left finite.le]

theorem bits_eq (x : Binary64)
    : x.bits.toNat = x.magnitudeBits + if x.isNegative then signBit.toNat else 0 := by
  have word := x.bits.toNat_lt
  have half : 2 ^ 64 = 2 * signBit.toNat := rfl
  have whole := Nat.div_add_mod x.bits.toNat signBit.toNat
  rw [magnitudeBits]
  split
  next negative =>
    rw [isNegative_iff] at negative
    have one : x.bits.toNat / signBit.toNat = 1 :=
      Nat.div_eq_of_lt_le (by omega) (by omega)
    rw [one] at whole
    omega
  next positive =>
    rw [isNegative_iff, not_le] at positive
    rw [Nat.mod_eq_of_lt positive, Nat.add_zero]

theorem ofRatio_of_eq {x : Binary64} (finite : x.magnitudeBits < infinityBits.toNat) {num den : Nat}
    (positive : 0 < den) (exact : (num : ℚ) / den = magnitude x.magnitudeBits)
    : ofRatio x.isNegative num den = x := by
  have bits : (ofRatio x.isNegative num den).bits = x.bits := by
    rw [← UInt64.toNat_inj, bits_ofRatio, nearestMagnitude_of_eq finite positive exact,
      ← bits_eq x]
  exact congrArg mk bits

/-- The digits of a finite number in its exact decimal expansion. -/
def decimalDigits (x : Binary64) : Nat :=
  x.significand * 2 ^ x.scale.toNat * 5 ^ (-x.scale).toNat

/-- A finite number is read back from its exact decimal expansion, which is never so long that its
exponent is out of range.
-/
theorem ofDecimal_decimalDigits {x : Binary64} (finite : x.magnitudeBits < infinityBits.toNat)
    : ofDecimal x.isNegative x.decimalDigits (-((-x.scale).toNat : Int)) = x := by
  by_cases zero : x.decimalDigits = 0
  · have nothing : magnitude x.magnitudeBits = 0 := by
      have unsigned : magnitude x.magnitudeBits = x.significand * 2 ^ x.scale := rfl
      have none : x.significand = 0 := by simpa [decimalDigits] using zero
      rw [unsigned, none, Nat.cast_zero, zero_mul]
    rw [ofDecimal, if_pos (Or.inl zero)]
    exact ofRatio_of_eq finite one_pos (by simp [nothing])
  have least : -1074 ≤ x.scale := by
    unfold scale
    omega
  have long : 2 * (-x.scale).toNat ≤ x.decimalDigits.log2 := by
    rw [Nat.le_log2 zero, Nat.pow_mul]
    calc 4 ^ (-x.scale).toNat
      _ ≤ 5 ^ (-x.scale).toNat := Nat.pow_le_pow_left (by decide) _
      _ ≤ x.decimalDigits := Nat.le_mul_of_pos_left _ (Nat.pos_of_ne_zero fun none => zero (by
          rw [decimalDigits, none, Nat.zero_mul]))
  rw [ofDecimal, if_neg (by omega), if_neg (by omega)]
  rw [show (-((-x.scale).toNat : Int)).toNat = 0 by omega,
    show (- -((-x.scale).toNat : Int)).toNat = (-x.scale).toNat by omega]
  refine ofRatio_of_eq finite (Nat.pow_pos (by decide)) ?_
  have unsigned : magnitude x.magnitudeBits = x.significand * 2 ^ x.scale := rfl
  rw [unsigned, two_zpow_eq, decimalDigits]
  have ten : (10 : ℚ) ^ (-x.scale).toNat = 2 ^ (-x.scale).toNat * 5 ^ (-x.scale).toNat := by
    rw [← mul_pow]
    norm_num
  push_cast [Nat.pow_eq]
  rw [ten]
  field_simp

/-! ## Integers of more bits than a significand has -/

/-- A significand one above the greatest is that of the next binade. -/
theorem magnitude_add_carry (field : Nat)
    : magnitude (field * leadingBit + 2 * leadingBit)
      = (2 * leadingBit : Nat) * 2 ^ ((field : Int) + 1 - 1075) := by
  have carried : field * leadingBit + 2 * leadingBit = (field + 1) * leadingBit + leadingBit := by
    ring
  rw [carried, magnitude_add (le_refl _) (by decide)]
  have unit : (2 : ℚ) ^ (((field + 1 : Nat) : Int) + 1 - 1075)
      = 2 * 2 ^ ((field : Int) + 1 - 1075) := by
    rw [← zpow_one_add₀ two_ne_zero]
    congr 1
    push_cast
    ring
  rw [unit]
  push_cast
  ring

/-- From two to the power of `52 + k` on, every number is a multiple of two to the power of `k`. -/
theorem exists_mul_two_pow {bits k : Nat} (large : 2 ^ (52 + k) ≤ magnitude bits)
    : ∃ n : Nat, magnitude bits = (n * 2 ^ k : Nat) := by
  have nonzero : bits ≠ 0 := by
    rintro rfl
    rw [magnitude_zero] at large
    exact absurd large (not_le.mpr (by positivity))
  obtain ⟨significand, unit, fits, value, _⟩ := exists_fits nonzero
  have short : (significand : ℚ) < 2 ^ 53 := by
    have leading : 2 * leadingBit = 2 ^ 53 := rfl
    exact_mod_cast leading ▸ fits.short
  -- A smaller unit would leave the number below the bound.
  have coarse : (k : Int) ≤ unit := by
    have bound : (2 : ℚ) ^ ((52 + k : Nat) : Int) < 2 ^ (53 + unit) := by
      calc (2 : ℚ) ^ ((52 + k : Nat) : Int) = 2 ^ (52 + k) := zpow_natCast _ _
        _ ≤ significand * 2 ^ unit := value ▸ large
        _ < 2 ^ 53 * 2 ^ unit := mul_lt_mul_of_pos_right short (by positivity)
        _ = 2 ^ (53 + unit) := by
          rw [zpow_add₀ two_ne_zero]
          norm_num
    have := (zpow_lt_zpow_iff_right₀ one_lt_two).mp bound
    omega
  refine ⟨significand * 2 ^ (unit - k).toNat, ?_⟩
  have split : (2 : ℚ) ^ unit = 2 ^ (unit - k).toNat * 2 ^ k := by
    rw [← pow_add, ← zpow_natCast]
    exact congrArg (fun z : Int => (2 : ℚ) ^ z) (by omega)
  rw [value, split]
  push_cast
  ring

/-- The bits of the number nearest to an integer of more than fifty-three bits, whose significand is
at most one above the greatest.
-/
theorem nearestMagnitude_of_large {n : Nat} (large : 2 ^ 53 ≤ n) (bounded : n.log2 < 1023)
    : nearestMagnitude n 1
        = (n.log2 + 1022) * leadingBit + roundHalfEven n (2 ^ (n.log2 - 52))
      ∧ leadingBit ≤ roundHalfEven n (2 ^ (n.log2 - 52))
      ∧ roundHalfEven n (2 ^ (n.log2 - 52)) ≤ 2 * leadingBit := by
  have nonzero : n ≠ 0 := by omega
  have width : 53 ≤ n.log2 := (Nat.le_log2 nonzero).mpr large
  have quantum : quantum n 1 = ((n.log2 - 52 : Nat) : Int) := by
    rw [quantum, floorLog2_one nonzero]
    omega
  have leading : leadingBit * 2 ^ (n.log2 - 52) = 2 ^ n.log2 := by
    rw [show leadingBit = 2 ^ 52 from rfl, ← pow_add, Nat.add_sub_cancel' (by omega)]
  have low : leadingBit ≤ roundHalfEven n (2 ^ (n.log2 - 52)) := by
    refine le_trans ?_ (le_roundHalfEven _ _)
    rw [Nat.le_div_iff_mul_le (by positivity), leading]
    exact Nat.log2_self_le nonzero
  have high : roundHalfEven n (2 ^ (n.log2 - 52)) ≤ 2 * leadingBit := by
    refine (roundHalfEven_le _ _).trans (Nat.div_lt_of_lt_mul ?_)
    calc n < 2 ^ n.log2 * 2 := Nat.lt_log2_self
      _ = 2 ^ (n.log2 - 52) * (2 * leadingBit) := by
          rw [← leading]
          ring
  have infinity : infinityBits.toNat = 2047 * leadingBit := rfl
  refine ⟨?_, low, high⟩
  simp only [nearestMagnitude, nonzero, if_false, quantum]
  rw [show (-((n.log2 - 52 : Nat) : Int)).toNat = 0 by omega, Int.toNat_natCast,
    Nat.shiftLeft_zero, Nat.one_shiftLeft,
    show (((n.log2 - 52 : Nat) : Int) + 1074).toNat = n.log2 + 1022 by omega]
  refine Nat.min_eq_left ?_
  unfold leadingBit at *
  omega

/-- An integer of more than fifty-three bits goes to a multiple of a power of two. -/
theorem magnitude_nearest_of_large {n : Nat} (large : 2 ^ 53 ≤ n) (bounded : n.log2 < 1023)
    : nearestMagnitude n 1 < infinityBits.toNat
      ∧ magnitude (nearestMagnitude n 1)
        = (roundHalfEven n (2 ^ (n.log2 - 52)) * 2 ^ (n.log2 - 52) : Nat) := by
  have width : 53 ≤ n.log2 := (Nat.le_log2 (by omega)).mpr large
  obtain ⟨nearest, low, high⟩ := nearestMagnitude_of_large large bounded
  have infinity : infinityBits.toNat = 2047 * leadingBit := rfl
  have unit : (2 : ℚ) ^ (((n.log2 + 1022 : Nat) : Int) + 1 - 1075) = 2 ^ (n.log2 - 52) := by
    rw [← zpow_natCast]
    exact congrArg (fun z : Int => (2 : ℚ) ^ z) (by omega)
  constructor
  · rw [nearest]
    unfold leadingBit at *
    omega
  · rw [nearest]
    push_cast
    rcases high.lt_or_eq with short | carry
    · rw [magnitude_add low short, unit]
    · rw [carry, magnitude_add_carry, unit]

end Binary64

end PagedIndex
