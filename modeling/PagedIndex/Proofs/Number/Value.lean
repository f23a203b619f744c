import Mathlib
import PagedIndex.Number.Binary64

/-! What binary64 numbers denote. A finite number denotes a rational, whatever its bits; the
infinities lie below and above all rationals, and NaN lies above everything. Numbers compare as what
they denote.
-/

namespace PagedIndex

/-- What a number can denote: a rational, one of the infinities, or NaN above all. -/
abbrev Numeric := WithTop (WithTop (WithBot ℚ))

namespace Numeric

def ofRat (q : ℚ) : Numeric := ((q : WithBot ℚ) : WithTop (WithBot ℚ))

def negInfinity : Numeric := ((⊥ : WithBot ℚ) : WithTop (WithBot ℚ))

def posInfinity : Numeric := (⊤ : WithTop (WithBot ℚ))

def nan : Numeric := ⊤

@[simp] theorem ofRat_lt_ofRat {p q : ℚ} : ofRat p < ofRat q ↔ p < q := by simp [ofRat]

@[simp] theorem ofRat_le_ofRat {p q : ℚ} : ofRat p ≤ ofRat q ↔ p ≤ q := by simp [ofRat]

@[simp] theorem ofRat_inj {p q : ℚ} : ofRat p = ofRat q ↔ p = q := by simp [ofRat]

@[simp] theorem negInfinity_lt_ofRat (q : ℚ) : negInfinity < ofRat q :=
  WithTop.coe_lt_coe.mpr (WithTop.coe_lt_coe.mpr (WithBot.bot_lt_coe q))

@[simp] theorem ofRat_lt_posInfinity (q : ℚ) : ofRat q < posInfinity := by
  simp [posInfinity, ofRat]

@[simp] theorem negInfinity_lt_posInfinity : negInfinity < posInfinity :=
  WithTop.coe_lt_coe.mpr (WithTop.coe_lt_top _)

@[simp] theorem posInfinity_lt_nan : posInfinity < nan := by simp [posInfinity, nan]

theorem ofRat_lt_nan (q : ℚ) : ofRat q < nan := (ofRat_lt_posInfinity q).trans posInfinity_lt_nan

end Numeric

namespace Binary64

/-- The rational that a finite number denotes. Both zeros denote zero. -/
def toRat (x : Binary64) : ℚ := x.signedSignificand * 2 ^ x.scale

/-- What a number denotes. -/
def value (x : Binary64) : Numeric :=
  if x.isNaN then .nan
  else if x.isInfinite then if x.isNegative then .negInfinity else .posInfinity
  else .ofRat x.toRat

theorem isNaN_eq_false_iff {x : Binary64}
    : x.isNaN = false ↔ x.magnitudeBits ≤ infinityBits.toNat := by
  simp [isNaN]

theorem value_of_isNaN {x : Binary64} (is : x.isNaN = true) : x.value = .nan := if_pos is

theorem value_nan : nan.value = .nan := value_of_isNaN (by decide)

theorem value_of_finite {x : Binary64} (finite : x.magnitudeBits < infinityBits.toNat)
    : x.value = .ofRat x.toRat := by
  rw [value, isNaN_eq_false_iff.mpr finite.le, isInfinite, decide_eq_false finite.ne]
  rfl

/-- A number denotes a rational, one of the infinities, or NaN. -/
theorem value_cases (x : Binary64)
    : (x.magnitudeBits < infinityBits.toNat ∧ x.value = .ofRat x.toRat)
      ∨ x.value = .negInfinity
      ∨ x.value = .posInfinity
      ∨ (x.isNaN = true ∧ x.value = .nan) := by
  cases number : x.isNaN with
  | true => exact Or.inr (Or.inr (Or.inr ⟨rfl, value_of_isNaN number⟩))
  | false =>
      rcases (isNaN_eq_false_iff.mp number).lt_or_eq with finite | infinite
      · exact Or.inl ⟨finite, value_of_finite finite⟩
      · have beyond : x.value = if x.isNegative then .negInfinity else .posInfinity := by
          simp [value, number, isInfinite, infinite]
        rw [beyond]
        split
        · exact Or.inr (Or.inl rfl)
        · exact Or.inr (Or.inr (Or.inl rfl))

/-- A number that denotes something between rationals is finite. -/
theorem finite_of_between {x : Binary64} {p q : ℚ} (low : .ofRat p ≤ x.value)
    (high : x.value < .ofRat q)
    : x.magnitudeBits < infinityBits.toNat := by
  rcases x.value_cases with ⟨finite, _⟩ | denoted | denoted | ⟨_, denoted⟩
  · exact finite
  · exact absurd (denoted ▸ low) (Numeric.negInfinity_lt_ofRat p).not_ge
  · exact absurd (denoted ▸ high) (Numeric.ofRat_lt_posInfinity q).not_gt
  · exact absurd (denoted ▸ high) (Numeric.ofRat_lt_nan q).not_gt

/-- A number denotes a rational if and only if it is finite and that is its rational. -/
theorem value_eq_ofRat_iff {x : Binary64} {q : ℚ}
    : x.value = .ofRat q ↔ x.magnitudeBits < infinityBits.toNat ∧ x.toRat = q := by
  constructor
  · intro denoted
    have finite : x.magnitudeBits < infinityBits.toNat :=
      finite_of_between denoted.ge (denoted ▸ Numeric.ofRat_lt_ofRat.mpr (lt_add_one q))
    rw [value_of_finite finite, Numeric.ofRat_inj] at denoted
    exact ⟨finite, denoted⟩
  · rintro ⟨finite, rfl⟩
    exact value_of_finite finite

theorem value_lt_nan {x : Binary64} (number : x.isNaN = false) : x.value < nan.value := by
  rw [value_nan]
  rcases x.value_cases with ⟨_, denoted⟩ | denoted | denoted | ⟨is, _⟩
  · exact denoted ▸ Numeric.ofRat_lt_nan _
  · exact denoted ▸ Numeric.negInfinity_lt_posInfinity.trans Numeric.posInfinity_lt_nan
  · exact denoted ▸ Numeric.posInfinity_lt_nan
  · simp [number] at is

/-! ## Magnitudes -/

/-- The rational that the bits of a finite number denote apart from the sign. -/
def magnitude (bits : Nat) : ℚ :=
  ((if bits / leadingBit = 0 then bits % leadingBit else bits % leadingBit + leadingBit : Nat) : ℚ)
    * 2 ^ (((max (bits / leadingBit) 1 : Nat) : Int) - 1075)

theorem toRat_eq (x : Binary64)
    : x.toRat = if x.isNegative then -magnitude x.magnitudeBits else magnitude x.magnitudeBits := by
  have unsigned : magnitude x.magnitudeBits = x.significand * 2 ^ x.scale := rfl
  rw [unsigned, toRat, signedSignificand]
  split <;> simp

@[simp] theorem magnitude_zero : magnitude 0 = 0 := by simp [magnitude, leadingBit]

/-- Greater bits denote a greater rational: at the end of a binade the significand falls back to its
least value while the unit doubles.
-/
theorem strictMono_magnitude : StrictMono magnitude := by
  refine strictMono_nat_of_lt_succ fun bits => ?_
  unfold magnitude
  have low := Nat.mod_lt bits (show 0 < leadingBit by decide)
  by_cases last : bits % leadingBit + 1 = leadingBit
  · have next : (bits + 1) / leadingBit = bits / leadingBit + 1 := by
      unfold leadingBit at *
      omega
    have start : (bits + 1) % leadingBit = 0 := by
      unfold leadingBit at *
      omega
    rw [next, start, zero_add, if_neg (Nat.succ_ne_zero _)]
    generalize bits / leadingBit = field
    by_cases subnormal : field = 0
    · rw [if_pos subnormal, subnormal]
      exact mul_lt_mul_of_pos_right (by exact_mod_cast low) (by positivity)
    · have unit : (2 : ℚ) ^ (((max (field + 1) 1 : Nat) : Int) - 1075)
          = 2 * 2 ^ (((max field 1 : Nat) : Int) - 1075) := by
        rw [← zpow_one_add₀ two_ne_zero]
        congr 1
        omega
      rw [if_neg subnormal, unit, ← mul_assoc]
      refine mul_lt_mul_of_pos_right ?_ (by positivity)
      exact_mod_cast (by omega : bits % leadingBit + leadingBit < leadingBit * 2)
  · have next : (bits + 1) / leadingBit = bits / leadingBit := by
      unfold leadingBit at *
      omega
    have start : (bits + 1) % leadingBit = bits % leadingBit + 1 := by
      unfold leadingBit at *
      omega
    rw [next, start]
    refine mul_lt_mul_of_pos_right ?_ (by positivity)
    split <;> norm_num

theorem magnitude_pos {bits : Nat} (nonzero : bits ≠ 0) : 0 < magnitude bits := by
  rw [← magnitude_zero]
  exact strictMono_magnitude (Nat.pos_of_ne_zero nonzero)

/-- Either zero denotes zero. -/
theorem value_of_zero {x : Binary64} (zero : x.magnitudeBits = 0) : x.value = .ofRat 0 := by
  rw [value_of_finite (zero ▸ by decide), toRat_eq, zero, magnitude_zero, neg_zero, ite_self]

/-! ## Signed magnitudes -/

/-- The magnitude with the sign of the number, which forgets the difference between the zeros. -/
def signedBits (x : Binary64) : Int := if x.isNegative then -x.magnitudeBits else x.magnitudeBits

/-- The rational that signed bits denote, if they are finite. -/
def ratOf (z : Int) : ℚ := if z < 0 then -magnitude z.natAbs else magnitude z.natAbs

theorem toRat_eq_ratOf (x : Binary64) : x.toRat = ratOf x.signedBits := by
  rw [toRat_eq, ratOf, signedBits]
  by_cases negative : x.isNegative = true
  · rw [if_pos negative, if_pos negative, Int.natAbs_neg, Int.natAbs_natCast]
    by_cases zero : x.magnitudeBits = 0
    · simp [zero]
    · rw [if_pos (by omega)]
  · rw [if_neg negative, if_neg negative, Int.natAbs_natCast, if_neg (by omega)]

theorem strictMono_ratOf : StrictMono ratOf := by
  intro z w below
  unfold ratOf
  by_cases left : z < 0 <;> by_cases right : w < 0
  · rw [if_pos left, if_pos right, neg_lt_neg_iff]
    exact strictMono_magnitude (by omega)
  · rw [if_pos left, if_neg right]
    calc -magnitude z.natAbs < 0 := neg_neg_of_pos (magnitude_pos (by omega))
      _ = magnitude 0 := magnitude_zero.symm
      _ ≤ magnitude w.natAbs := strictMono_magnitude.monotone (Nat.zero_le _)
  · omega
  · rw [if_neg left, if_neg right]
    exact strictMono_magnitude (by omega)

/-- What signed bits denote that are not beyond those of the infinities. -/
def grade (z : Int) : Numeric :=
  if z ≤ -infinityBits.toNat then .negInfinity
  else if infinityBits.toNat ≤ z then .posInfinity
  else .ofRat (ratOf z)

theorem value_eq_grade {x : Binary64} (number : x.isNaN = false)
    : x.value = grade x.signedBits := by
  have bound := isNaN_eq_false_iff.mp number
  have something : infinityBits.toNat ≠ 0 := by decide
  simp only [value, number, isInfinite, decide_eq_true_eq, Bool.false_eq_true, if_false, grade]
  by_cases infinite : x.magnitudeBits = infinityBits.toNat
  · rw [if_pos infinite, signedBits, infinite]
    split
    · rw [if_pos (le_refl _)]
    · rw [if_neg (by omega), if_pos (le_refl _)]
  · have low : ¬ x.signedBits ≤ -infinityBits.toNat := by
      unfold signedBits
      split <;> omega
    have high : ¬ (infinityBits.toNat : Int) ≤ x.signedBits := by
      unfold signedBits
      split <;> omega
    rw [if_neg infinite, if_neg low, if_neg high, toRat_eq_ratOf]

theorem grade_lt_grade {z w : Int} (below : z < w) (low : -infinityBits.toNat ≤ z)
    (high : w ≤ infinityBits.toNat)
    : grade z < grade w := by
  unfold grade
  rw [if_neg (show ¬ w ≤ -infinityBits.toNat by omega),
    if_neg (show ¬ (infinityBits.toNat : Int) ≤ z by omega)]
  split <;> split
  · exact Numeric.negInfinity_lt_posInfinity
  · exact Numeric.negInfinity_lt_ofRat _
  · exact Numeric.ofRat_lt_posInfinity _
  · exact Numeric.ofRat_lt_ofRat.mpr (strictMono_ratOf below)

theorem abs_signedBits_le {x : Binary64} (number : x.isNaN = false)
    : -infinityBits.toNat ≤ x.signedBits ∧ x.signedBits ≤ infinityBits.toNat := by
  have bound := isNaN_eq_false_iff.mp number
  unfold signedBits
  split <;> omega

/-- Apart from NaN, numbers are ordered by their signed bits. -/
theorem cmp_value {x y : Binary64} (left : x.isNaN = false) (right : y.isNaN = false)
    : cmp x.value y.value = cmp x.signedBits y.signedBits := by
  rw [value_eq_grade left, value_eq_grade right]
  have boundX := abs_signedBits_le left
  have boundY := abs_signedBits_le right
  rcases lt_trichotomy x.signedBits y.signedBits with below | same | above
  · rw [(cmp_eq_lt_iff _ _).mpr below,
      (cmp_eq_lt_iff _ _).mpr (grade_lt_grade below boundX.1 boundY.2)]
  · rw [same, cmp_self_eq_eq, cmp_self_eq_eq]
  · rw [(cmp_eq_gt_iff _ _).mpr above,
      (cmp_eq_gt_iff _ _).mpr (grade_lt_grade above boundY.1 boundX.2)]

/-! ## Comparing codes -/

/-- Changing the leading bit of a word. -/
theorem xor_signBit {n : Nat} (word : n < UInt64.size)
    : n ^^^ signBit.toNat = if n < signBit.toNat then n + signBit.toNat else n - signBit.toNat := by
  have power : signBit.toNat = 2 ^ 63 := rfl
  rw [power] at *
  have quotient : (n ^^^ 2 ^ 63) / 2 ^ 63 = (n / 2 ^ 63) ^^^ 1 := by
    rw [Nat.xor_div_two_pow, Nat.div_self (by positivity)]
  have remainder : (n ^^^ 2 ^ 63) % 2 ^ 63 = n % 2 ^ 63 := by
    rw [Nat.xor_mod_two_pow]
    simp
  have whole := Nat.div_add_mod (n ^^^ 2 ^ 63) (2 ^ 63)
  rw [quotient, remainder] at whole
  have size : UInt64.size = 2 * 2 ^ 63 := rfl
  split
  next low =>
    rw [Nat.div_eq_of_lt low, Nat.mod_eq_of_lt low, Nat.zero_xor] at whole
    omega
  next high =>
    have one : n / 2 ^ 63 = 1 := by omega
    rw [one, Nat.xor_self] at whole
    omega

theorem isNegative_iff {x : Binary64} : x.isNegative = true ↔ signBit.toNat ≤ x.bits.toNat := by
  rw [isNegative, decide_eq_true_iff, UInt64.le_iff_toNat_le]

/-- The codes of negative numbers go down from the middle and the others go up from there. -/
theorem toNat_orderCode (x : Binary64)
    : x.orderCode.toNat
      = if x.isNegative then signBit.toNat - 1 - x.magnitudeBits
        else signBit.toNat + x.magnitudeBits := by
  have word := x.bits.toNat_lt
  have half : 2 ^ 64 = 2 * signBit.toNat := rfl
  have size : UInt64.size = 2 ^ 64 := rfl
  unfold orderCode magnitudeBits
  split
  next negative =>
    have high := isNegative_iff.mp negative
    rw [UInt64.toNat_not]
    have rest : x.bits.toNat % signBit.toNat = x.bits.toNat - signBit.toNat := by
      rw [Nat.mod_eq_sub_mod high, Nat.mod_eq_of_lt]
      omega
    omega
  next positive =>
    have low : x.bits.toNat < signBit.toNat := by
      by_contra high
      exact positive (isNegative_iff.mpr (by omega))
    rw [UInt64.toNat_xor, xor_signBit word, if_pos low, Nat.mod_eq_of_lt low, Nat.add_comm]

theorem magnitudeBits_lt (x : Binary64) : x.magnitudeBits < signBit.toNat :=
  Nat.mod_lt _ (by decide)

/-- Codes are in the order of the signed bits, except that they tell the zeros apart. -/
theorem orderCode_lt_iff {x y : Binary64} (apart : ¬(x.magnitudeBits = 0 ∧ y.magnitudeBits = 0))
    : x.orderCode.toNat < y.orderCode.toNat ↔ x.signedBits < y.signedBits := by
  have boundX := x.magnitudeBits_lt
  have boundY := y.magnitudeBits_lt
  rw [toNat_orderCode, toNat_orderCode, signedBits, signedBits]
  cases x.isNegative <;> cases y.isNegative <;> simp only [if_true, Bool.false_eq_true, if_false]
  all_goals omega

theorem compare_orderCode {x y : Binary64} (apart : ¬(x.magnitudeBits = 0 ∧ y.magnitudeBits = 0))
    : compare x.orderCode y.orderCode = cmp x.signedBits y.signedBits := by
  have forth := orderCode_lt_iff apart
  have back := orderCode_lt_iff (x := y) (y := x) fun both => apart both.symm
  rw [UInt64.compare_eq_toNat_compare_toNat, ← cmp_eq_compare, cmp, cmpUsing, cmp, cmpUsing]
  simp only [forth, back]

/-- Numbers other than NaN compare as what they denote. -/
theorem partialCompare_eq {x y : Binary64} (left : x.isNaN = false) (right : y.isNaN = false)
    : x.partialCompare y = some (cmp x.value y.value) := by
  simp only [partialCompare, left, right, Bool.or_self, Bool.false_eq_true, if_false]
  rw [cmp_value left right]
  split
  next zeros => simp [signedBits, zeros.1, zeros.2]
  next apart => rw [compare_orderCode apart]

/-- The one NaN has the greatest code of the numbers that are compared by their codes. -/
theorem compare_orderCode_nan {x : Binary64} (number : x.isNaN = false)
    : compare x.orderCode nan.orderCode = .lt := by
  have bound := (abs_signedBits_le number).2
  have beyond : (infinityBits.toNat : Int) < nan.signedBits := by decide
  rw [compare_orderCode (fun both => absurd both.2 (by decide)), cmp_eq_lt_iff]
  omega

/-- The code of a number gives it back, whatever its bits. -/
theorem ofOrderCode_orderCode (x : Binary64) : ofOrderCode x.orderCode = x := by
  have half : 2 ^ 64 = 2 * signBit.toNat := rfl
  have size : UInt64.size = 2 ^ 64 := rfl
  have word := x.bits.toNat_lt
  unfold ofOrderCode orderCode isNegative
  by_cases negative : signBit ≤ x.bits
  · have low : ¬signBit ≤ ~~~x.bits := by
      rw [UInt64.le_iff_toNat_le] at *
      rw [UInt64.toNat_not]
      omega
    simp [negative, low]
  · have high : signBit ≤ x.bits ^^^ signBit := by
      rw [UInt64.le_iff_toNat_le] at *
      rw [UInt64.toNat_xor, xor_signBit word, if_pos (by omega)]
      omega
    simp [negative, high]

/-- A code is that of the number it gives, whatever the code. -/
theorem orderCode_ofOrderCode (code : UInt64) : (ofOrderCode code).orderCode = code := by
  have half : 2 ^ 64 = 2 * signBit.toNat := rfl
  have size : UInt64.size = 2 ^ 64 := rfl
  have word := code.toNat_lt
  unfold ofOrderCode
  split
  next upper =>
    have low : ¬signBit ≤ code ^^^ signBit := by
      rw [UInt64.le_iff_toNat_le] at *
      rw [UInt64.toNat_xor, xor_signBit word, if_neg (by omega)]
      omega
    simp [orderCode, isNegative, low]
  next lower =>
    have high : signBit ≤ ~~~code := by
      rw [UInt64.le_iff_toNat_le] at *
      rw [UInt64.toNat_not]
      omega
    simp [orderCode, isNegative, high]

theorem orderCode_injective : Function.Injective orderCode :=
  Function.LeftInverse.injective ofOrderCode_orderCode

end Binary64

end PagedIndex
