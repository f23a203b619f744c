import PagedIndex.Key

/-! The bytes that stand for a key in a hash. Keys that compare equal have the same bytes, because
numbers are digested in canonical form.
-/

namespace PagedIndex

/-- Eight bytes of a word, least significant first. -/
def littleEndian64 (word : UInt64) : List UInt8 :=
  (List.range 8).map fun i => (word >>> (8 * i).toUInt64).toUInt8

/-- The word that stands for a canonical number: an integer in two's complement or the bits of a
real. An integer and a real may share a word.
-/
def Quantity.word : Quantity → UInt64
  | .whole i => i.toUInt64
  | .real x => x.bits

/-- The bytes of a key: its rank, then its value. A text is closed by a byte that UTF-8 never
uses.
-/
def Key.digest (key : Key) : List UInt8 :=
  UInt8.ofNat key.rank ::
    match key with
    | .null => []
    | .bool b => [if b then 1 else 0]
    | .text s => s.toUTF8.data.toList ++ [0xff]
    | .int _ | .real _ => (key.quantity?.map fun q => littleEndian64 q.word).getD []

end PagedIndex
