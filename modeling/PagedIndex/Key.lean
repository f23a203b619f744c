import PagedIndex.Number.Rounding

/-! Index keys of mixed kinds in one total order: null, then booleans, then numbers by value, then
texts. Integers and reals share the numeric order, so an integer and the equal real are one key;
every NaN is one number above all others.
-/

namespace PagedIndex

/-- An index key. A real is held as its order-preserving code, any of which is allowed. -/
inductive Key where
  | null
  | bool (value : Bool)
  | int (value : Int64)
  | real (code : UInt64)
  | text (value : String)
deriving DecidableEq, Repr

/-- A number in canonical form: a real that is an integer in the range of `Int64` is that integer,
and any NaN is the one NaN.
-/
inductive Quantity where
  | whole (value : Int64)
  | real (value : Binary64)
deriving DecidableEq, Repr

namespace Quantity

/-- The canonical form of a binary64 number. -/
def ofBinary64 (x : Binary64) : Quantity :=
  if x.isNaN then .real .nan
  else
    match x.toInt? with
    | some i =>
      if Int64.minValue.toInt ≤ i ∧ i ≤ Int64.maxValue.toInt then .whole (Int64.ofInt i)
      else .real x
    | none => .real x

/-- Compares an integer with a number that is not an integer in the same range, so the two are
never equal. The integer is rounded where the number has a fractional part, which no number has
that is as large as an integer that rounding changes.
-/
def compareWhole (i : Int64) (x : Binary64) : Ordering :=
  if x.isNaN || (x.partialCompare .twoPow63).any (·.isGE) then .lt
  else if (x.partialCompare .minusTwoPow63).any (·.isLT) then .gt
  else ((Binary64.ofInt i.toInt).partialCompare x).getD .lt

/-- The numeric order of canonical numbers. -/
def compare : Quantity → Quantity → Ordering
  | .whole i, .whole j => Ord.compare i j
  | .real x, .real y => Ord.compare x.orderCode y.orderCode
  | .whole i, .real x => compareWhole i x
  | .real x, .whole i => (compareWhole i x).swap

end Quantity

namespace Key

/-- The key of a binary64 number, in canonical form. -/
def ofBinary64 (x : Binary64) : Key :=
  match Quantity.ofBinary64 x with
  | .whole i => .int i
  | .real y => .real y.orderCode

/-- The number a numeric key is as a binary64: an integer is rounded, a real is taken as stored. -/
def toBinary64? : Key → Option Binary64
  | .int i => some (.ofInt i.toInt)
  | .real code => some (.ofOrderCode code)
  | _ => none

/-- The canonical number of a numeric key. A stored real need not be canonical. -/
def quantity? : Key → Option Quantity
  | .int i => some (.whole i)
  | .real code => some (.ofBinary64 (.ofOrderCode code))
  | _ => none

/-- The place of a key's kind among the kinds. -/
def rank : Key → Nat
  | .null => 0
  | .bool _ => 1
  | .int _ | .real _ => 2
  | .text _ => 3

/-- The order of keys. Texts are ordered by code point, which is the order of their UTF-8 bytes. -/
def compare (a b : Key) : Ordering :=
  match a, b with
  | .bool x, .bool y => Ord.compare x y
  | .text x, .text y => Ord.compare x y
  | _, _ =>
    match a.quantity?, b.quantity? with
    | some x, some y => x.compare y
    | _, _ => Ord.compare a.rank b.rank

instance : Ord Key := ⟨compare⟩

/-- The partial order of keys, in which all keys are comparable. -/
def partialCompare (a b : Key) : Option Ordering := some (Ord.compare a b)

/-- Equality of keys, which is coarser than being the same: equal numbers are one key. -/
def agrees (a b : Key) : Bool := Ord.compare a b == .eq

end Key

end PagedIndex
