import PagedIndex.Number.Rounding

/-! JSON values as a text spells them: numbers keep their digits and exponents, and objects keep
their members in order, repeated names included.
-/

namespace PagedIndex.Json

/-- A number as it is written: its digits read as one natural number, how many of them follow the
decimal point, and the exponent of ten.
-/
structure Numeral where
  negative : Bool
  digits : Nat
  /-- The number of digits after the point; absent without a point. -/
  places : Option Nat
  exponent : Option Int
deriving DecidableEq, Repr

namespace Numeral

def ofNat (n : Nat) : Numeral :=
  { negative := false, digits := n, places := none, exponent := none }

def ofInt (i : Int) : Numeral := { ofNat i.natAbs with negative := decide (i < 0) }

/-- The integer a numeral spells without a point or an exponent. Negative zero spells a real. -/
def toInt? (n : Numeral) : Option Int :=
  if n.places.isSome || n.exponent.isSome || (n.negative && n.digits == 0) then none
  else some (if n.negative then -(n.digits : Int) else n.digits)

/-- The binary64 number nearest to what a numeral spells. -/
def toBinary64 (n : Numeral) : Binary64 :=
  .ofDecimal n.negative n.digits (n.exponent.getD 0 - (n.places.getD 0 : Nat))

end Numeral

/-- A JSON value. A string that holds half of a surrogate pair is well-formed but spells no text,
and then it is `none`.
-/
inductive Value where
  | null
  | bool (b : Bool)
  | number (n : Numeral)
  | string (text : Option String)
  | array (items : List Value)
  | object (members : List (Option String × Value))
deriving Repr

namespace Value

def ofText (s : String) : Value := .string (some s)

def ofNat (n : Nat) : Value := .number (.ofNat n)

def ofInt (i : Int) : Value := .number (.ofInt i)

/-- The object with the given members. -/
def ofMembers (members : List (String × Value)) : Value :=
  .object (members.map fun (name, value) => (some name, value))

end Value

end PagedIndex.Json
