import PagedIndex.Text.Hex

/-! Records and the entries that index them. A record key is the serialized identity of a record
and names it across the whole index, so a record has at most one entry.
-/

namespace PagedIndex

/-- The serialized identity of a record. -/
structure RecordKey where
  bytes : List UInt8
deriving DecidableEq, Repr

namespace RecordKey

/-- Record keys are ordered byte by byte. -/
instance : Ord RecordKey := ⟨fun a b => compare a.bytes b.bytes⟩

def toHex (key : RecordKey) : String := Hex.encode key.bytes

/-- The text of a record key in messages for people. -/
def describe (key : RecordKey) : String := "RecordKey(" ++ key.toHex ++ ")"

/-- The four-byte big-endian record key of a number. -/
def ofNat32 (n : Nat) : RecordKey :=
  ⟨[24, 16, 8, 0].map fun shift => UInt8.ofNat (n >>> shift)⟩

end RecordKey

/-- An entry of the index: the record it stands for and what is kept with it. -/
structure Entry (V : Type u) where
  record : RecordKey
  payload : V
deriving DecidableEq, Repr

end PagedIndex
