import PagedIndex.Json.Value
import PagedIndex.Text.Hex

/-! Compact JSON text: no blanks, and in strings only what must be escaped is escaped. -/

namespace PagedIndex.Json

/-- A character of a string as it is written: quotes, backslashes and control characters below
the blank are escaped, five of the latter by a letter.
-/
def escapeChar (c : Char) : List Char :=
  if c = '"' then ['\\', '"']
  else if c = '\\' then ['\\', '\\']
  else if c = '\x08' then ['\\', 'b']
  else if c = '\x0c' then ['\\', 'f']
  else if c = '\n' then ['\\', 'n']
  else if c = '\r' then ['\\', 'r']
  else if c = '\t' then ['\\', 't']
  else if c.toNat < 32 then '\\' :: 'u' :: Hex.digits 4 c.toNat
  else [c]

/-- A string in its quotes. A string that spells no text is written as half of a pair. -/
def writeString : Option String → List Char
  | some s => '"' :: s.toList.flatMap escapeChar ++ ['"']
  | none => "\"\\ud800\"".toList

/-- Decimal digits with a point before the last `places` of them. -/
def writeDigits (digits : Nat) : Option Nat → List Char
  | none => (toString digits).toList
  | some places =>
    let cs := (toString digits).toList
    let padded := List.replicate (places + 1 - cs.length) '0' ++ cs
    padded.take (padded.length - places) ++ '.' :: padded.drop (padded.length - places)

def writeNumeral (n : Numeral) : List Char :=
  (if n.negative then ['-'] else [])
    ++ writeDigits n.digits n.places
    ++ ((n.exponent.map fun e => 'e' :: (toString e).toList).getD [])

mutual

/-- The text of a value. -/
def write : Value → List Char
  | .null => "null".toList
  | .bool b => (if b then "true" else "false").toList
  | .number n => writeNumeral n
  | .string s => writeString s
  | .array items => '[' :: writeItems items ++ [']']
  | .object members => '\x7b' :: writeMembers members ++ ['\x7d']

/-- Values with commas between them. -/
def writeItems : List Value → List Char
  | [] => []
  | [v] => write v
  | v :: rest => write v ++ ',' :: writeItems rest

/-- Named values with commas between them. -/
def writeMembers : List (Option String × Value) → List Char
  | [] => []
  | [(name, v)] => writeString name ++ ':' :: write v
  | (name, v) :: rest => writeString name ++ ':' :: write v ++ ',' :: writeMembers rest

end

def Value.render (v : Value) : String := String.ofList (write v)

end PagedIndex.Json
