import PagedIndex.Json.Typed
import PagedIndex.Range.Descriptor

/-! The names of directions and comparisons in JSON. -/

namespace PagedIndex

open Json

namespace Direction

/-- The name of a direction in JSON. -/
def label : Direction → String
  | ascending => "ascending"
  | descending => "descending"

def toJson (d : Direction) : Value := .ofText d.label

def ofJson? (v : Value) : Option Direction := do
  match ← v.constant? with
  | "ascending" => return .ascending
  | "descending" => return .descending
  | _ => none

end Direction

namespace Comparison

/-- The name of a comparison in JSON. -/
def label : Comparison → String
  | greater => "greater"
  | greaterOrEqual => "greater_or_equal"
  | less => "less"
  | lessOrEqual => "less_or_equal"

def toJson (c : Comparison) : Value := .ofText c.label

def ofJson? (v : Value) : Option Comparison := do
  match ← v.constant? with
  | "greater" => return .greater
  | "greater_or_equal" => return .greaterOrEqual
  | "less" => return .less
  | "less_or_equal" => return .lessOrEqual
  | _ => none

end Comparison

end PagedIndex
