/-! The common 32-bit cyclic redundancy check, computed bit by bit with the lowest bit first: the
register starts with all bits set and is inverted at the end.
-/

namespace PagedIndex.Crc32

/-- The generator polynomial with its bits reversed. -/
def polynomial : UInt32 := 0xedb88320

/-- Shifts one bit out of the register. -/
def shift (register : UInt32) : UInt32 :=
  if register &&& 1 = 1 then (register >>> 1) ^^^ polynomial else register >>> 1

/-- Takes one byte into the register. -/
def step (register : UInt32) (byte : UInt8) : UInt32 :=
  Nat.repeat shift 8 (register ^^^ byte.toUInt32)

/-- The checksum of some bytes. -/
def checksum (bytes : List UInt8) : UInt32 := ~~~(bytes.foldl step 0xffffffff)

/-- Four bytes of a checksum, least significant first. -/
def littleEndian (word : UInt32) : List UInt8 :=
  [word.toUInt8, (word >>> 8).toUInt8, (word >>> 16).toUInt8, (word >>> 24).toUInt8]

end PagedIndex.Crc32
