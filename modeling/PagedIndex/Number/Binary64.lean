/-! Binary64 floating-point numbers as exact bit patterns. A finite number is read as an integer
significand times a power of two, so that integrality and floors are decided in exact integer
arithmetic, and numbers are compared by codes that are in their order.
-/

namespace PagedIndex

/-- A binary64 number: one sign bit, eleven exponent bits and fifty-two fraction bits. -/
structure Binary64 where
  bits : UInt64
deriving DecidableEq, Repr

namespace Binary64

/-- The sign bit of a bit pattern. -/
def signBit : UInt64 := 0x8000000000000000

/-- The bits of positive infinity; a larger magnitude is a NaN. -/
def infinityBits : UInt64 := 0x7ff0000000000000

/-- The leading bit of a significand, which a number with a nonzero exponent field has without
storing it: two to the number of fraction bits.
-/
def leadingBit : Nat := 0x10000000000000

/-- The one NaN that every NaN is normalized to. -/
def nan : Binary64 := ⟨0x7ff8000000000000⟩

/-- A number with its sign bit set, negative zero and some NaNs included. -/
def isNegative (x : Binary64) : Bool := decide (signBit ≤ x.bits)

/-- The bits without the sign, as a natural number. -/
def magnitudeBits (x : Binary64) : Nat := x.bits.toNat % signBit.toNat

/-- The eleven exponent bits as they are stored. -/
def exponentField (x : Binary64) : Nat := x.magnitudeBits / leadingBit

/-- The fifty-two fraction bits as they are stored. -/
def fractionField (x : Binary64) : Nat := x.magnitudeBits % leadingBit

def isNaN (x : Binary64) : Bool := decide (infinityBits.toNat < x.magnitudeBits)

def isInfinite (x : Binary64) : Bool := decide (x.magnitudeBits = infinityBits.toNat)

/-- The unsigned integer that a power of two multiplies in a finite number. -/
def significand (x : Binary64) : Nat :=
  if x.exponentField = 0 then x.fractionField else x.fractionField + leadingBit

/-- The exponent of the power of two that multiplies the significand of a finite number. -/
def scale (x : Binary64) : Int := (max x.exponentField 1 : Nat) - 1075

/-- The significand with the sign of the number. -/
def signedSignificand (x : Binary64) : Int :=
  if x.isNegative then -(x.significand : Int) else x.significand

/-- The numerator of a finite number over its `denominator`. -/
def numerator (x : Binary64) : Int := x.signedSignificand * (1 <<< x.scale.toNat : Nat)

/-- The power of two under which a finite number is an integer. -/
def denominator (x : Binary64) : Nat := 1 <<< (-x.scale).toNat

/-- The greatest integer at or below a finite number. -/
def floor (x : Binary64) : Int := x.numerator / x.denominator

/-- The integer that a number is, if it is finite and has no fractional part. -/
def toInt? (x : Binary64) : Option Int :=
  if x.isNaN || x.isInfinite then none
  else if x.floor * x.denominator = x.numerator then some x.floor
  else none

/-! ## Order-preserving codes -/

/-- The bits rearranged so that unsigned comparison of codes is the total order of the numbers:
negative numbers have all bits inverted, the others only the sign bit.
-/
def orderCode (x : Binary64) : UInt64 :=
  if x.isNegative then ~~~x.bits else x.bits ^^^ signBit

/-- The number with the given order-preserving code. -/
def ofOrderCode (code : UInt64) : Binary64 :=
  if signBit ≤ code then ⟨code ^^^ signBit⟩ else ⟨~~~code⟩

/-- The comparison of numbers by value. NaN is comparable with nothing, and both zeros are one. -/
def partialCompare (x y : Binary64) : Option Ordering :=
  if x.isNaN || y.isNaN then none
  else if x.magnitudeBits = 0 ∧ y.magnitudeBits = 0 then some .eq
  else some (compare x.orderCode y.orderCode)

/-- Two to the power of 63, the least integer above the range of `Int64`. -/
def twoPow63 : Binary64 := ⟨0x43e0000000000000⟩

/-- The least integer in the range of `Int64`. -/
def minusTwoPow63 : Binary64 := ⟨0xc3e0000000000000⟩

end Binary64

end PagedIndex
