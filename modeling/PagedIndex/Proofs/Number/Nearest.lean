import PagedIndex.Proofs.Number.Rounding

/-! The numbers nearest to rationals. Rounding an integer finds the number that is nearest to it,
and of two that are equally near the one with an even significand. A number nearest to a greater
rational is never less.
-/

namespace PagedIndex

/-! ## Multiples nearest to an integer -/

/-- A rounded quotient is off by less than half a unit, or by half a unit and even. -/
theorem roundHalfEven_error (n : Nat) {den : Nat} (positive : 0 < den)
    : 2 * |(roundHalfEven n den * den : Int) - n| < den
      ∨ (2 * |(roundHalfEven n den * den : Int) - n| = den ∧ roundHalfEven n den % 2 = 0) := by
  have whole := Nat.div_add_mod' n den
  have short : n % den < den := Nat.mod_lt n positive
  simp only [roundHalfEven]
  generalize n / den = units at *
  generalize n % den = rest at *
  subst whole
  have low : 2 * |((units : Nat) * den : Int) - (units * den + rest : Nat)| = 2 * rest := by
    have error : ((units : Nat) * den : Int) - (units * den + rest : Nat) = -(rest : Int) := by
      push_cast
      ring
    rw [error, abs_neg, Nat.abs_cast]
  have high : 2 * |((units + 1 : Nat) * den : Int) - (units * den + rest : Nat)|
      = 2 * ((den - rest : Nat) : Int) := by
    have error : ((units + 1 : Nat) * den : Int) - (units * den + rest : Nat)
        = ((den - rest : Nat) : Int) := by
      push_cast [Nat.cast_sub short.le]
      ring
    rw [error, Nat.abs_cast]
  split
  next below =>
    rw [low]
    omega
  next =>
    split
    next above =>
      rw [high]
      omega
    next =>
      right
      rcases Nat.mod_two_eq_zero_or_one units with even | odd
      · rw [even, Nat.add_zero, low]
        omega
      · rw [odd, high]
        omega

/-- No multiple of a unit is nearer to an integer than the rounded quotient, and another one that is
as near leaves the quotient even.
-/
theorem roundHalfEven_nearest (n : Nat) {den : Nat} (positive : 0 < den) (z : Int)
    : |(roundHalfEven n den * den : Int) - n| ≤ |z * den - n|
      ∧ (|z * den - n| = |(roundHalfEven n den * den : Int) - n| → z ≠ roundHalfEven n den
        → roundHalfEven n den % 2 = 0) := by
  by_cases same : z = roundHalfEven n den
  · exact ⟨by rw [same], fun _ apart => absurd same apart⟩
  -- Another multiple is at least a unit away from the rounded one.
  have unit : (den : Int) ≤ |z * den - roundHalfEven n den * den| := by
    rw [← sub_mul, abs_mul, Nat.abs_cast]
    have one : 1 ≤ |z - roundHalfEven n den| := Int.one_le_abs (sub_ne_zero.mpr same)
    exact le_mul_of_one_le_left (Int.natCast_nonneg _) one
  have detour : |z * den - roundHalfEven n den * den|
      ≤ |z * den - n| + |(roundHalfEven n den * den : Int) - n| := by
    rw [abs_sub_comm (roundHalfEven n den * den : Int)]
    exact abs_sub_le _ _ _
  rcases roundHalfEven_error n positive with near | ⟨half, even⟩
  · exact ⟨by omega, fun tie => by omega⟩
  · exact ⟨by omega, fun _ _ => even⟩

namespace Binary64

/-! ## Nearest numbers -/

/-- A finite number is nearest to a rational: no finite number is nearer, and only one with an even
significand is as near as another.
-/
structure Nearest (q : ℚ) (x : Binary64) : Prop where
  finite : x.magnitudeBits < infinityBits.toNat
  least : ∀ y : Binary64, y.magnitudeBits < infinityBits.toNat → |x.toRat - q| ≤ |y.toRat - q|
  even
    : ∀ y : Binary64, y.magnitudeBits < infinityBits.toNat → y.toRat ≠ x.toRat
        → |y.toRat - q| = |x.toRat - q| → x.significand % 2 = 0

/-- A finite number is nearest to what it denotes. -/
theorem nearest_toRat {x : Binary64} (finite : x.magnitudeBits < infinityBits.toNat)
    : Nearest x.toRat x where
  finite := finite
  least := fun y _ => by
    rw [sub_self, abs_zero]
    exact abs_nonneg _
  even := fun y _ apart tie => by
    rw [sub_self, abs_zero, abs_eq_zero, sub_eq_zero] at tie
    exact absurd tie apart

namespace Nearest

variable {p q : ℚ} {x y : Binary64}

theorem value_eq (h : Nearest q x) : x.value = .ofRat x.toRat := value_of_finite h.finite

/-- A number nearest to a greater rational is not less. -/
theorem toRat_le (h : Nearest p x) (g : Nearest q y) (below : p < q) : x.toRat ≤ y.toRat := by
  by_contra above
  rw [not_le] at above
  -- Otherwise neither rational would be on its side of the middle.
  have left : x.toRat + y.toRat ≤ 2 * p := by
    have nearer := sq_le_sq.mpr (h.least y g.finite)
    nlinarith only [nearer, above]
  have right : 2 * q ≤ x.toRat + y.toRat := by
    have nearer := sq_le_sq.mpr (g.least x h.finite)
    nlinarith only [nearer, above]
  linarith

/-- A rational that is denoted by a finite number is denoted by the nearest one. -/
theorem toRat_eq (h : Nearest q x) (finite : y.magnitudeBits < infinityBits.toNat)
    (exact : y.toRat = q)
    : x.toRat = q := by
  have near := h.least y finite
  rw [exact, sub_self, abs_zero, abs_nonpos_iff, sub_eq_zero] at near
  exact near

/-- What lies below a rational lies below the nearest number. -/
theorem value_le (h : Nearest q x) (below : y.value ≤ .ofRat q) : y.value ≤ x.value := by
  rw [h.value_eq]
  rcases y.value_cases with ⟨finite, denoted⟩ | denoted | denoted | ⟨_, denoted⟩ <;>
    rw [denoted] at below ⊢
  · rw [Numeric.ofRat_le_ofRat] at below ⊢
    rcases below.lt_or_eq with less | exact
    · exact (nearest_toRat finite).toRat_le h less
    · rw [h.toRat_eq finite exact, exact]
  · exact (Numeric.negInfinity_lt_ofRat _).le
  · exact absurd below (Numeric.ofRat_lt_posInfinity q).not_ge
  · exact absurd below (Numeric.ofRat_lt_nan q).not_ge

/-- What lies above a rational lies above the nearest number. -/
theorem le_value (h : Nearest q x) (above : .ofRat q ≤ y.value) : x.value ≤ y.value := by
  rw [h.value_eq]
  rcases y.value_cases with ⟨finite, denoted⟩ | denoted | denoted | ⟨_, denoted⟩ <;>
    rw [denoted] at above ⊢
  · rw [Numeric.ofRat_le_ofRat] at above ⊢
    rcases above.lt_or_eq with greater | exact
    · exact h.toRat_le (nearest_toRat finite) greater
    · rw [h.toRat_eq finite exact.symm, exact]
  · exact absurd above (Numeric.negInfinity_lt_ofRat q).not_ge
  · exact (Numeric.ofRat_lt_posInfinity _).le
  · exact (Numeric.ofRat_lt_nan _).le

end Nearest

/-! ## Rounded integers -/

theorem abs_toRat (x : Binary64) : |x.toRat| = magnitude x.magnitudeBits := by
  have positive : 0 ≤ magnitude x.magnitudeBits := by
    unfold magnitude
    positivity
  rw [toRat_eq]
  split
  · rw [abs_neg, abs_of_nonneg positive]
  · exact abs_of_nonneg positive

/-- An integer that is denoted by a number other than the zeros is rounded to this number. -/
theorem ofInt_eq_of_value {x : Binary64} {i : Int} (nonzero : x.magnitudeBits ≠ 0)
    (denoted : x.value = .ofRat i)
    : ofInt i = x := by
  obtain ⟨finite, exact⟩ := value_eq_ofRat_iff.mp denoted
  have positive := magnitude_pos nonzero
  have signs : decide (i < 0) = x.isNegative := by
    rw [Bool.eq_iff_iff, decide_eq_true_iff, ← Int.cast_lt_zero (R := ℚ), ← exact, toRat_eq]
    split
    next negative => simp [negative, positive]
    next other => simp [other, positive.le]
  rw [ofInt, signs]
  refine ofRatio_of_eq finite one_pos ?_
  rw [Nat.cast_one, div_one, Nat.cast_natAbs, Int.cast_abs, ← exact, abs_toRat]

/-- A significand and the bits of its number are even together. -/
theorem significand_mod_two (x : Binary64) : x.significand % 2 = x.magnitudeBits % 2 := by
  unfold significand exponentField fractionField leadingBit
  split <;> omega

/-- An integer of more than fifty-three bits is rounded to the nearest multiple of a unit, and no
number between two multiples is as large.
-/
theorem abs_sub_le_of_large {n : Nat} (large : 2 ^ 53 ≤ n) {q : ℚ} {bits : Nat}
    (size : |q| = magnitude bits)
    : |((roundHalfEven n (2 ^ (n.log2 - 52)) * 2 ^ (n.log2 - 52) : Nat) : ℚ) - n| ≤ |q - n|
      ∧ (|q - n| = |((roundHalfEven n (2 ^ (n.log2 - 52)) * 2 ^ (n.log2 - 52) : Nat) : ℚ) - n|
        → q ≠ (roundHalfEven n (2 ^ (n.log2 - 52)) * 2 ^ (n.log2 - 52) : Nat)
        → roundHalfEven n (2 ^ (n.log2 - 52)) % 2 = 0) := by
  have width : 53 ≤ n.log2 := (Nat.le_log2 (by omega)).mpr large
  have least : 2 ^ 52 * 2 ^ (n.log2 - 52) ≤ n := by
    rw [← pow_add, Nat.add_sub_cancel' (by omega)]
    exact Nat.log2_self_le (by omega)
  generalize n.log2 - 52 = k at *
  have nearest := roundHalfEven_nearest n (Nat.two_pow_pos k)
  by_cases multiple : 2 ^ (52 + k) ≤ magnitude bits
  · obtain ⟨m, exact⟩ := exists_mul_two_pow multiple
    obtain ⟨z, rfl⟩ : ∃ z : Int, q = (z * (2 ^ k : Nat) : Int) := by
      rw [exact] at size
      rcases abs_choice q with same | opposite
      · exact ⟨m, by rw [← same, size]; push_cast; ring⟩
      · exact ⟨-m, by rw [← neg_neg q, ← opposite, size]; push_cast; ring⟩
    have ⟨near, even⟩ := nearest z
    refine ⟨by exact_mod_cast near, fun tie apart => even (by exact_mod_cast tie) ?_⟩
    rintro rfl
    exact apart (by push_cast; ring)
  · -- The least multiple of the binade is nearer than anything below it.
    have below : q < 2 ^ 52 * 2 ^ k := by
      rw [← pow_add]
      exact (le_abs_self q).trans_lt (size ▸ not_le.mp multiple)
    have bound : (2 ^ 52 * 2 ^ k : ℚ) ≤ n := by exact_mod_cast least
    have near : |((roundHalfEven n (2 ^ k) * 2 ^ k : Nat) : ℚ) - n| ≤ n - 2 ^ 52 * 2 ^ k := by
      rw [← abs_of_nonneg (sub_nonneg.mpr bound), abs_sub_comm (n : ℚ)]
      have least := (nearest ((2 ^ 52 : Nat) : Int)).1
      push_cast at least ⊢
      exact_mod_cast least
    have further : |q - n| = n - q := by
      rw [abs_sub_comm, abs_of_nonneg]
      linarith
    rw [further]
    exact ⟨by linarith, fun tie => by linarith⟩

/-- An integer of at most fifty-three bits is a number, which is nearest to it. -/
theorem nearest_ofInt_of_small {i : Int} (small : i.natAbs < 2 ^ 53) : Nearest i (ofInt i) := by
  obtain ⟨finite, exact⟩ := value_eq_ofRat_iff.mp (value_ofInt small)
  exact exact ▸ nearest_toRat finite

/-- Signs change no distance, so an integer is as near to a number as their sizes are. -/
theorem abs_signed_sub (i : Int) (q : ℚ) : |(if i < 0 then -q else q) - i| = |q - i.natAbs| := by
  rw [Nat.cast_natAbs]
  split
  next negative =>
    rw [abs_of_neg negative, ← abs_neg]
    push_cast
    congr 1
    ring
  next positive => rw [abs_of_nonneg (not_lt.mp positive)]

/-- A number is that of its bits, or its negative, whichever sign is put before it. -/
theorem exists_signed (x : Binary64) (i : Int)
    : ∃ q : ℚ, |q| = magnitude x.magnitudeBits ∧ x.toRat = if i < 0 then -q else q := by
  refine ⟨if i < 0 then -x.toRat else x.toRat, ?_, ?_⟩
  · rw [← abs_toRat]
    split
    · exact abs_neg _
    · rfl
  · split
    · rw [neg_neg]
    · rfl

theorem nearest_ofInt_of_large {i : Int} (large : 2 ^ 53 ≤ i.natAbs)
    (bounded : i.natAbs.log2 < 1023)
    : Nearest i (ofInt i) := by
  obtain ⟨finite, rounded⟩ := magnitude_nearest_of_large large bounded
  obtain ⟨bits, _⟩ := nearestMagnitude_of_large large bounded
  have same : (ofInt i).magnitudeBits = nearestMagnitude i.natAbs 1 := magnitudeBits_ofInt i
  have signed : (ofInt i).toRat = if i < 0 then -magnitude (nearestMagnitude i.natAbs 1)
      else magnitude (nearestMagnitude i.natAbs 1) := by
    simp only [toRat_eq, isNegative_ofInt, magnitudeBits_ofInt]
  refine ⟨same ▸ finite, fun y _ => ?_, fun y _ apart tie => ?_⟩
  · obtain ⟨q, size, denoted⟩ := exists_signed y i
    rw [denoted, signed, abs_signed_sub, abs_signed_sub, rounded]
    exact (abs_sub_le_of_large large size).1
  · obtain ⟨q, size, denoted⟩ := exists_signed y i
    rw [denoted, signed, abs_signed_sub, abs_signed_sub, rounded] at tie
    have even := (abs_sub_le_of_large large size).2 tie fun equal => apart (by
      rw [denoted, signed, rounded, equal])
    -- Added to the bits of a binade, the significand keeps its last bit.
    rw [significand_mod_two, same, bits]
    unfold leadingBit
    omega

/-- Rounding an integer finds the nearest number. -/
theorem nearest_ofInt {i : Int} (bounded : i.natAbs.log2 < 1023) : Nearest i (ofInt i) := by
  by_cases small : i.natAbs < 2 ^ 53
  · exact nearest_ofInt_of_small small
  · exact nearest_ofInt_of_large (not_lt.mp small) bounded

end Binary64

end PagedIndex
