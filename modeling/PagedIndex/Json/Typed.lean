import PagedIndex.Json.Value

/-! Reading typed data out of JSON values. Integers are written without a point or an exponent and
fit their type, and a choice between constructors is tagged with the constructor's name.
-/

namespace PagedIndex.Json.Value

/-- The integer a value spells, if it lies in a range. -/
def intBetween? (low high : Int) : Value → Option Int
  | .number n => n.toInt?.filter fun i => decide (low ≤ i ∧ i ≤ high)
  | _ => none

def int64? (v : Value) : Option Int64 :=
  (v.intBetween? Int64.minValue.toInt Int64.maxValue.toInt).map Int64.ofInt

def uint64? (v : Value) : Option UInt64 :=
  (v.intBetween? 0 (UInt64.size - 1 : Nat)).map fun i => UInt64.ofNat i.toNat

def byte? (v : Value) : Option UInt8 :=
  (v.intBetween? 0 255).map fun i => UInt8.ofNat i.toNat

def bool? : Value → Option Bool
  | .bool b => some b
  | _ => none

/-- The text of a string. -/
def text? : Value → Option String
  | .string s => s
  | _ => none

/-- The bytes of an array of numbers. -/
def bytes? : Value → Option (List UInt8)
  | .array items => items.mapM byte?
  | _ => none

def ofBytes (bytes : List UInt8) : Value := .array (bytes.map fun b => .ofNat b.toNat)

/-- The name and the argument of a tagged value: the one member of an object, or a name alone for
a constructor without an argument, which may also be given a null.
-/
def tagged? : Value → Option (String × Option Value)
  | .string (some name) => some (name, none)
  | .object [(some name, v)] => some (name, some v)
  | _ => none

/-- The name of a constructor without an argument. -/
def constant? (v : Value) : Option String :=
  match v.tagged? with
  | some (name, none) => some name
  | some (name, some .null) => some name
  | _ => none

end PagedIndex.Json.Value
