import PagedIndex.Record
import PagedIndex.Range.Endpoint

/-! Buckets: the entries of one index key in the order of their insertion. Each entry is stamped
with a sequence number and the numbers rise along the bucket, so a sequence number splits it into
an earlier and a later part.
-/

namespace PagedIndex

/-- An entry with the sequence number of its insertion. -/
structure Slot (V : Type u) where
  seq : Nat
  entry : Entry V
deriving DecidableEq, Repr

/-- The entries of one index key, oldest first. -/
structure Bucket (V : Type u) where
  slots : List (Slot V)
deriving DecidableEq, Repr

namespace Bucket

def empty : Bucket V := ⟨[]⟩

def size (b : Bucket V) : Nat := b.slots.length

def isEmpty (b : Bucket V) : Bool := b.slots.isEmpty

/-- The entries, oldest first. -/
def entries (b : Bucket V) : List (Entry V) := b.slots.map (·.entry)

/-- The sequence number under which a record is held. -/
def seqOf? (b : Bucket V) (record : RecordKey) : Option Nat :=
  (b.slots.find? fun slot => slot.entry.record == record).map (·.seq)

def contains (b : Bucket V) (record : RecordKey) : Bool :=
  b.slots.any fun slot => slot.entry.record == record

/-- The slot at a position counted from the oldest. -/
def get? (b : Bucket V) (index : Nat) : Option (Slot V) := b.slots[index]?

/-- Adds an entry at the end. A record that is held already keeps its place and its sequence
number and only has its entry replaced.
-/
def append (b : Bucket V) (seq : Nat) (entry : Entry V) : Bucket V :=
  if b.contains entry.record then
    ⟨b.slots.map fun slot =>
      if slot.entry.record == entry.record then { slot with entry } else slot⟩
  else ⟨b.slots ++ [⟨seq, entry⟩]⟩

/-- The sequence number an entry of a record ends up with when appended. -/
def placedSeq (b : Bucket V) (seq : Nat) (record : RecordKey) : Nat :=
  (b.seqOf? record).getD seq

/-- Takes a record out. The others keep their order. -/
def erase (b : Bucket V) (record : RecordKey) : Bucket V :=
  ⟨b.slots.filter fun slot => slot.entry.record != record⟩

/-- Binary search between two positions for the first slot whose sequence number fails a test
that holds up to some point of the bucket and fails from there on.
-/
def search (b : Bucket V) (early : Nat → Bool) (low high : Nat) : Nat :=
  if low < high then
    let middle := low + (high - low) / 2
    match b.get? middle with
    | some slot =>
      if early slot.seq then search b early (middle + 1) high else search b early low middle
    | none => search b early low middle
  else low
termination_by high - low

/-- The number of entries inserted at or before a sequence number: where the later ones begin. -/
def countUpTo (b : Bucket V) (seq : Nat) : Nat := b.search (fun s => decide (s ≤ seq)) 0 b.size

/-- The number of entries inserted strictly before a sequence number. -/
def countBefore (b : Bucket V) (seq : Nat) : Nat :=
  b.search (fun s => decide (s < seq)) 0 b.size

/-- The half-open interval of positions strictly after a sequence number in the direction of
travel. Descending travel goes through the interval from its end.
-/
def beyond (b : Bucket V) (direction : Direction) (seq : Nat) : Nat × Nat :=
  match direction with
  | .ascending => (b.countUpTo seq, b.size)
  | .descending => (0, b.countBefore seq)

end Bucket

end PagedIndex
