import PagedIndex.Json.Value
import PagedIndex.Text.Hex

/-! The lexemes of JSON text: punctuation, literals, numerals and strings, without the blanks
between them.
-/

namespace PagedIndex.Json

/-- A unit of JSON text. -/
inductive Lexeme where
  | openArray
  | closeArray
  | openObject
  | closeObject
  | comma
  | colon
  | null
  | bool (b : Bool)
  | number (n : Numeral)
  | string (text : Option String)
deriving DecidableEq, Repr

/-- The four characters that may stand between lexemes. -/
def isBlank (c : Char) : Bool := c = ' ' || c = '\t' || c = '\n' || c = '\r'

/-! ## Strings -/

/-- A piece of a string: a character, or a sixteen-bit unit given by its code. -/
inductive Piece where
  | char (c : Char)
  | unit (code : Nat)
deriving DecidableEq, Repr

/-- The character that a one-letter escape stands for. -/
def escapedChar? (c : Char) : Option Char :=
  match c with
  | '"' => some '"'
  | '\\' => some '\\'
  | '/' => some '/'
  | 'b' => some '\x08'
  | 'f' => some '\x0c'
  | 'n' => some '\n'
  | 'r' => some '\r'
  | 't' => some '\t'
  | _ => none

/-- Reads a string from after its opening quote to its closing quote and gives the rest. Control
characters below the blank have to be escaped.
-/
def readPieces : List Char → Option (List Piece × List Char)
  | [] => none
  | '"' :: rest => some ([], rest)
  | '\\' :: 'u' :: a :: b :: c :: d :: rest => do
    let code ← Hex.value? [a, b, c, d]
    let (pieces, rest) ← readPieces rest
    return (.unit code :: pieces, rest)
  | '\\' :: c :: rest => do
    let char ← escapedChar? c
    let (pieces, rest) ← readPieces rest
    return (.char char :: pieces, rest)
  | c :: rest =>
    if c.toNat < 32 || c = '\\' then none
    else (readPieces rest).map fun (pieces, rest) => (.char c :: pieces, rest)

/-- The characters that pieces spell. Two units of a surrogate pair make one character; half of a
pair spells nothing.
-/
def spell : List Piece → Option (List Char)
  | [] => some []
  | .char c :: rest => (spell rest).map (c :: ·)
  | .unit high :: .unit low :: rest =>
    if 0xd800 ≤ high ∧ high < 0xdc00 then
      if 0xdc00 ≤ low ∧ low < 0xe000 then
        (spell rest).map (Char.ofNat (0x10000 + (high - 0xd800) * 0x400 + (low - 0xdc00)) :: ·)
      else none
    else if 0xdc00 ≤ high ∧ high < 0xe000 then none
    else (spell (.unit low :: rest)).map (Char.ofNat high :: ·)
  | .unit code :: rest =>
    if 0xd800 ≤ code ∧ code < 0xe000 then none
    else (spell rest).map (Char.ofNat code :: ·)

/-- Reads a string from after its opening quote. -/
def readString (cs : List Char) : Option (Option String × List Char) :=
  (readPieces cs).map fun (pieces, rest) => ((spell pieces).map String.ofList, rest)

/-! ## Numerals -/

/-- The number that a run of decimal digits spells. -/
def digitsValue (cs : List Char) : Nat := cs.foldl (fun n c => n * 10 + (c.toNat - 48)) 0

/-- Splits off the decimal digits at the front. -/
def spanDigits (cs : List Char) : List Char × List Char :=
  (cs.takeWhile Char.isDigit, cs.dropWhile Char.isDigit)

/-- Reads the digits after a point, of which there is at least one. -/
def readFraction : List Char → Option (Option (List Char) × List Char)
  | '.' :: rest =>
    let (digits, rest) := spanDigits rest
    if digits.isEmpty then none else some (some digits, rest)
  | rest => some (none, rest)

/-- Reads an exponent, whose sign is optional and whose digits are not. -/
def readExponent : List Char → Option (Option Int × List Char)
  | c :: rest =>
    if c = 'e' ∨ c = 'E' then
      let (negative, rest) :=
        match rest with
        | '-' :: rest => (true, rest)
        | '+' :: rest => (false, rest)
        | rest => (false, rest)
      let (digits, rest) := spanDigits rest
      if digits.isEmpty then none
      else
        let value : Int := digitsValue digits
        some (some (if negative then -value else value), rest)
    else some (none, c :: rest)
  | [] => some (none, [])

/-- Reads a numeral without its sign. A leading zero stands alone before the point. -/
def readUnsigned (negative : Bool) (cs : List Char) : Option (Numeral × List Char) := do
  let (whole, rest) :=
    match cs with
    | '0' :: rest => (['0'], rest)
    | cs => spanDigits cs
  guard !whole.isEmpty
  let (fraction, rest) ← readFraction rest
  let (exponent, rest) ← readExponent rest
  let digits := digitsValue (whole ++ fraction.getD [])
  return ({ negative, digits, places := fraction.map List.length, exponent }, rest)

def readNumeral : List Char → Option (Numeral × List Char)
  | '-' :: rest => readUnsigned true rest
  | cs => readUnsigned false cs

/-! ## Lexemes -/

/-- Reads the lexeme at the front of a text that does not begin with a blank. -/
def readLexeme (cs : List Char) : Option (Lexeme × List Char) :=
  match cs with
  | '[' :: rest => some (.openArray, rest)
  | ']' :: rest => some (.closeArray, rest)
  | '\x7b' :: rest => some (.openObject, rest)
  | '\x7d' :: rest => some (.closeObject, rest)
  | ',' :: rest => some (.comma, rest)
  | ':' :: rest => some (.colon, rest)
  | 'n' :: 'u' :: 'l' :: 'l' :: rest => some (.null, rest)
  | 't' :: 'r' :: 'u' :: 'e' :: rest => some (.bool true, rest)
  | 'f' :: 'a' :: 'l' :: 's' :: 'e' :: rest => some (.bool false, rest)
  | '"' :: rest => (readString rest).map fun (s, rest) => (.string s, rest)
  | cs => (readNumeral cs).map fun (n, rest) => (.number n, rest)

/-- The lexemes of a text, read in at most `fuel` steps. -/
def lexemesWithin : Nat → List Char → Option (List Lexeme)
  | _, [] => some []
  | 0, _ => none
  | fuel + 1, c :: rest =>
    if isBlank c then lexemesWithin fuel rest
    else do
      let (lexeme, rest) ← readLexeme (c :: rest)
      let lexemes ← lexemesWithin fuel rest
      return lexeme :: lexemes

/-- The lexemes of a text. Every step takes at least one character. -/
def lexemes? (cs : List Char) : Option (List Lexeme) := lexemesWithin cs.length cs

end PagedIndex.Json
