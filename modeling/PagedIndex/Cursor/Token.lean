import PagedIndex.Cursor
import PagedIndex.Fault
import PagedIndex.Text.Base64
import PagedIndex.Text.Crc32

/-! Cursor tokens: cursors as text that can travel through other systems. A token is the base64 of
a checksum and the record key, so a token that was mangled on its way is refused.
-/

namespace PagedIndex

/-- Why a text is not the token of any cursor. -/
inductive TokenDefect where
  | invalidBase64 (defect : Base64.Defect)
  | tooShort (size : Nat)
  | checksumMismatch
deriving DecidableEq, Repr

def TokenDefect.message : TokenDefect → String
  | invalidBase64 defect => "invalid base64: " ++ defect.message
  | tooShort size => "token too short: " ++ toString size ++ " bytes"
  | checksumMismatch => "checksum mismatch"

namespace Cursor

/-- The bytes of a cursor behind their checksum. -/
def framed (bytes : List UInt8) : List UInt8 :=
  Crc32.littleEndian (Crc32.checksum bytes) ++ bytes

/-- The bytes behind a checksum that matches them. -/
def unframed (frame : List UInt8) : Except TokenDefect (List UInt8) :=
  if frame.length < 4 then .error (.tooShort frame.length)
  else
    let bytes := frame.drop 4
    if frame.take 4 = Crc32.littleEndian (Crc32.checksum bytes) then .ok bytes
    else .error .checksumMismatch

/-- The token of a cursor. -/
def token (cursor : Cursor) : String :=
  String.ofList ((Base64.encode (framed cursor.record.bytes)).map fun b => Char.ofNat b.toNat)

/-- The cursor of a token, or what is wrong with it. -/
def decodeToken (token : String) : Except TokenDefect Cursor := do
  let frame ← (Base64.decode token.toUTF8.data.toList).mapError .invalidBase64
  let bytes ← unframed frame
  return ⟨⟨bytes⟩⟩

/-- The cursor of a token that a reader hands in. -/
def ofToken (token : String) : Except Fault Cursor :=
  (decodeToken token).mapError fun defect => .malformedCursor defect.message

end Cursor

end PagedIndex
