import PagedIndex.Json.Typed
import PagedIndex.Key

/-! Keys and JSON: the key of a plain JSON scalar, and the tagged form in which keys are stored so
that every key reads back as it was.
-/

namespace PagedIndex.Key

open Json

/-- The key of a JSON scalar. An integer that fits is kept exactly and any other number becomes
the nearest binary64. Arrays and objects have no key.
-/
def ofScalar? : Value → Option Key
  | .null => some .null
  | .bool b => some (.bool b)
  | .string s => s.map .text
  | .number n =>
    match (Value.number n).int64? with
    | some i => some (.int i)
    | none => some (.ofBinary64 n.toBinary64)
  | .array _ | .object _ => none

/-- The tagged form of a key. A real is stored as its order-preserving code. -/
def toJson : Key → Value
  | null => .ofText "Null"
  | bool b => .ofMembers [("Bool", .bool b)]
  | int i => .ofMembers [("Int", .ofInt i.toInt)]
  | real code => .ofMembers [("Float", .ofNat code.toNat)]
  | text s => .ofMembers [("String", .ofText s)]

/-- The key of a tagged form. -/
def ofJson? (v : Value) : Option Key := do
  let (tag, argument) ← v.tagged?
  match tag, argument with
  | "Null", none | "Null", some .null => return .null
  | "Bool", some v => return .bool (← v.bool?)
  | "Int", some v => return .int (← v.int64?)
  | "Float", some v => return .real (← v.uint64?)
  | "String", some v => return .text (← v.text?)
  | _, _ => none

end PagedIndex.Key
