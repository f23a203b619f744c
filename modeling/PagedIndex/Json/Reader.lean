import PagedIndex.Json.Lexeme

/-! Reading JSON text, to any depth of nesting. -/

namespace PagedIndex.Json

mutual

/-- Reads a value at the front of some lexemes and gives those after it. -/
def readValue : Nat → List Lexeme → Option (Value × List Lexeme)
  | 0, _ => none
  | fuel + 1, lexeme :: rest =>
    match lexeme, rest with
    | .null, rest => some (.null, rest)
    | .bool b, rest => some (.bool b, rest)
    | .number n, rest => some (.number n, rest)
    | .string s, rest => some (.string s, rest)
    | .openArray, .closeArray :: rest => some (.array [], rest)
    | .openArray, rest => (readItems fuel rest).map fun (items, rest) => (.array items, rest)
    | .openObject, .closeObject :: rest => some (.object [], rest)
    | .openObject, rest =>
      (readMembers fuel rest).map fun (members, rest) => (.object members, rest)
    | _, _ => none
  | _, [] => none

/-- Reads the values of an array up to its closing bracket. -/
def readItems : Nat → List Lexeme → Option (List Value × List Lexeme)
  | 0, _ => none
  | fuel + 1, lexemes => do
    let (item, rest) ← readValue fuel lexemes
    match rest with
    | .closeArray :: rest => return ([item], rest)
    | .comma :: rest =>
      let (items, rest) ← readItems fuel rest
      return (item :: items, rest)
    | _ => none

/-- Reads the members of an object up to its closing brace. -/
def readMembers : Nat → List Lexeme → Option (List (Option String × Value) × List Lexeme)
  | 0, _ => none
  | fuel + 1, .string name :: .colon :: lexemes => do
    let (value, rest) ← readValue fuel lexemes
    match rest with
    | .closeObject :: rest => return ([(name, value)], rest)
    | .comma :: rest =>
      let (members, rest) ← readMembers fuel rest
      return ((name, value) :: members, rest)
    | _ => none
  | _ + 1, _ => none

end

/-- The value that lexemes spell when nothing is left over. The recursion takes at least one
lexeme in two steps.
-/
def valueOf? (lexemes : List Lexeme) : Option Value :=
  match readValue (2 * lexemes.length) lexemes with
  | some (value, []) => some value
  | _ => none

/-- The value that a text spells. -/
def Value.parse? (text : String) : Option Value := do valueOf? (← lexemes? text.toList)

end PagedIndex.Json
