import PagedIndex.Number.Binary64

/-! Rounding of exact values to binary64: a ratio of natural numbers goes to the nearest
representable number and a tie to the one with an even significand. Integers and decimal
numerals are read through that one rule.
-/

namespace PagedIndex

/-- The quotient rounded to the nearest natural number, a half going to the even neighbour. -/
def roundHalfEven (num den : Nat) : Nat :=
  let whole := num / den
  let twice := 2 * (num % den)
  if twice < den then whole
  else if den < twice then whole + 1
  else whole + whole % 2

/-- The exponent of the greatest power of two at or below a positive ratio. -/
def floorLog2 (num den : Nat) : Int :=
  let guess : Int := (num.log2 : Int) - den.log2
  if den <<< guess.toNat ≤ num <<< (-guess).toNat then guess else guess - 1

namespace Binary64

/-- The exponent of the unit in the last place near a positive ratio: fifty-three significant
bits, but never below the smallest subnormal number.
-/
def quantum (num den : Nat) : Int := max (floorLog2 num den - 52) (-1074)

/-- The bits, without sign, of the number nearest to `num / den`. A significand that rounds up to
the next power of two carries into the exponent, and a magnitude too large becomes infinity.
-/
def nearestMagnitude (num den : Nat) : Nat :=
  if num = 0 then 0
  else
    let q := quantum num den
    let units := roundHalfEven (num <<< (-q).toNat) (den <<< q.toNat)
    min ((q + 1074).toNat * leadingBit + units) infinityBits.toNat

/-- The number nearest to `num / den`, negated on request. -/
def ofRatio (negative : Bool) (num den : Nat) : Binary64 :=
  ⟨UInt64.ofNat (nearestMagnitude num den + if negative then signBit.toNat else 0)⟩

/-- The number nearest to an integer. -/
def ofInt (i : Int) : Binary64 := ofRatio (decide (i < 0)) i.natAbs 1

/-- The number nearest to `digits * 10 ^ exponent`. Exponents far beyond the range of the format
are answered without computing the power.
-/
def ofDecimal (negative : Bool) (digits : Nat) (exponent : Int) : Binary64 :=
  if digits = 0 ∨ exponent + (digits.log2 / 3 + 1 : Nat) < -400 then ofRatio negative 0 1
  else if 400 < exponent then ofRatio negative (1 <<< 1024) 1
  else ofRatio negative (digits * Nat.pow 10 exponent.toNat) (Nat.pow 10 (-exponent).toNat)

end Binary64

end PagedIndex
