/-! URL-safe base64 without padding. Encoding is the only way to write given bytes: the decoder
refuses padding, foreign bytes, impossible lengths and unused bits that are not zero, and says
what is wrong at which offset of the text.
-/

namespace PagedIndex.Base64

/-- The padding byte of other forms of base64. -/
def pad : UInt8 := 61

/-- The symbol of a number below sixty-four, as an ASCII code. -/
def symbol (n : Nat) : UInt8 :=
  if n < 26 then UInt8.ofNat (n + 65)
  else if n < 52 then UInt8.ofNat (n + 71)
  else if n < 62 then UInt8.ofNat (n - 4)
  else if n = 62 then 45
  else 95

/-- The number that a symbol stands for. -/
def symbolValue? (b : UInt8) : Option Nat :=
  let n := b.toNat
  if 65 ≤ n ∧ n ≤ 90 then some (n - 65)
  else if 97 ≤ n ∧ n ≤ 122 then some (n - 71)
  else if 48 ≤ n ∧ n ≤ 57 then some (n + 4)
  else if n = 45 then some 62
  else if n = 95 then some 63
  else none

/-- Why a text is not the base64 of anything. -/
inductive Defect where
  | invalidByte (offset : Nat) (byte : UInt8)
  | invalidLength
  | invalidPadding
  | invalidLastSymbol (offset : Nat) (byte : UInt8)
deriving DecidableEq, Repr

def Defect.message : Defect → String
  | invalidByte offset byte =>
    "Invalid byte " ++ toString byte.toNat ++ ", offset " ++ toString offset ++ "."
  | invalidLength => "Encoded text cannot have a 6-bit remainder."
  | invalidPadding => "Invalid padding"
  | invalidLastSymbol offset byte =>
    "Invalid last symbol " ++ toString byte.toNat ++ ", offset " ++ toString offset ++ "."

/-- The six-bit numbers of some bytes, three bytes to four numbers. -/
def split : List UInt8 → List Nat
  | x :: y :: z :: rest =>
    let n := x.toNat * 65536 + y.toNat * 256 + z.toNat
    n / 262144 :: n / 4096 % 64 :: n / 64 % 64 :: n % 64 :: split rest
  | [x, y] =>
    let n := x.toNat * 1024 + y.toNat * 4
    [n / 4096, n / 64 % 64, n % 64]
  | [x] =>
    let n := x.toNat * 16
    [n / 64, n % 64]
  | [] => []

/-- The bytes of some six-bit numbers, with unused bits left out. -/
def join : List Nat → List UInt8
  | a :: b :: c :: d :: rest =>
    let n := a * 262144 + b * 4096 + c * 64 + d
    UInt8.ofNat (n / 65536) :: UInt8.ofNat (n / 256 % 256) :: UInt8.ofNat (n % 256) :: join rest
  | [a, b, c] =>
    let n := a * 4096 + b * 64 + c
    [UInt8.ofNat (n / 1024), UInt8.ofNat (n / 4 % 256)]
  | [a, b] => [UInt8.ofNat ((a * 64 + b) / 16)]
  | _ => []

/-- The base64 text of some bytes, as ASCII codes. -/
def encode (bytes : List UInt8) : List UInt8 := (split bytes).map symbol

/-- The numbers of symbols from an offset on, up to the first byte that is no symbol. -/
def values (offset : Nat) : List UInt8 → Except Defect (List Nat)
  | [] => .ok []
  | b :: rest =>
    match symbolValue? b with
    | none => .error (.invalidByte offset b)
    | some n => (values (offset + 1) rest).map (n :: ·)

/-- The numbers of the last chunk of a text, which starts at an offset divisible by four. Padding
is refused there too, but first its place is checked: it must not be among the first two symbols
of four, and nothing follows it. Such faults are reported at the first padding byte.
-/
def lastValues (offset : Nat) (padding : Option Nat) : List UInt8 → Except Defect (List Nat)
  | [] => if padding.isSome then .error .invalidPadding else .ok []
  | b :: rest =>
    if b = pad then
      let first := padding.getD offset
      if offset % 4 < 2 then .error (.invalidByte first pad)
      else lastValues (offset + 1) (some first) rest
    else
      match padding with
      | some first => .error (.invalidByte first pad)
      | none =>
        match symbolValue? b with
        | none => .error (.invalidByte offset b)
        | some n => (lastValues (offset + 1) none rest).map (n :: ·)

/-- The bits of the last symbol that no byte uses, when `count` symbols are given. -/
def unusedBits (count last : Nat) : Nat :=
  match count % 4 with
  | 2 => last % 16
  | 3 => last % 4
  | _ => 0

/-- The bytes a base64 text stands for. The text is cut into chunks of eight symbols, the last of
which is looked at with more care than the others.
-/
def decode (text : List UInt8) : Except Defect (List UInt8) :=
  let size := text.length
  let last := text.getLast?.getD pad
  if size % 4 = 1 then
    if last ≠ pad ∧ symbolValue? last = none then .error (.invalidByte (size - 1) last)
    else .error .invalidLength
  else do
    let start := (size - 1) / 8 * 8
    let first ← values 0 (text.take start)
    let second ← lastValues start none (text.drop start)
    let numbers := first ++ second
    if unusedBits size (numbers.getLast?.getD 0) ≠ 0 then
      .error (.invalidLastSymbol (size - 1) last)
    else return join numbers

end PagedIndex.Base64
