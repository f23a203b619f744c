import PagedIndex.Bucket
import PagedIndex.Range.Descriptor

/-! Trees: the sorted map from index keys to buckets. No two buckets have equal keys and none is
empty.

Versions of a tree and readers may keep a tree or a bucket in common, and a writer copies what
somebody else keeps. What is one allocation is told by numbers: every write gives the tree, and the
bucket that it writes to, a number that none had before. A write to what nobody else keeps works in
place and does the same, for nobody is left who could tell the old allocation from a new one.
-/

namespace PagedIndex

/-- A bucket in its place in a tree. -/
structure Leaf (K : Type u) (V : Type v) where
  key : K
  bucket : Bucket V
  /-- The number of the write that last changed the bucket, which stands for the allocation it is
  in: two versions of a tree share the bucket of a key just if they have it with one revision. In a
  private copy it is zero, the number of no write.
  -/
  revision : Nat
deriving DecidableEq, Repr

/-- One version of a sorted map from keys to buckets. -/
structure Tree (K : Type u) (V : Type v) where
  /-- The buckets in ascending order of their keys. -/
  leaves : List (Leaf K V)
  /-- The number of entries in all buckets. -/
  size : Nat
  /-- The number of this version, which stands for the allocation it is in. It starts with one and
  rises with every write; a private copy has number zero.
  -/
  version : Nat
deriving DecidableEq, Repr

namespace Tree

/-- The first version of a tree. -/
def empty : Tree K V := { leaves := [], size := 0, version := 1 }

/-- A private tree with copies of some buckets, which it shares with no other tree. -/
def copyOf (leaves : List (Leaf K V)) : Tree K V :=
  { leaves := leaves.map fun leaf => { leaf with revision := 0 }
    size := leaves.foldl (fun n leaf => n + leaf.bucket.size) 0
    version := 0 }

/-- The version after dropping everything, which is one more write. -/
def cleared (t : Tree K V) : Tree K V := { leaves := [], size := 0, version := t.version + 1 }

def keyCount (t : Tree K V) : Nat := t.leaves.length

def isEmpty (t : Tree K V) : Bool := t.size == 0

variable [Ord K]

/-- The leaf of a key. -/
def leaf? (t : Tree K V) (key : K) : Option (Leaf K V) :=
  t.leaves.find? fun leaf => (compare key leaf.key).isEq

/-- The bucket of a key. -/
def bucket? (t : Tree K V) (key : K) : Option (Bucket V) := (t.leaf? key).map (·.bucket)

/-- A record has its entry under a key. -/
def holds (t : Tree K V) (key : K) (record : RecordKey) : Bool :=
  (t.bucket? key).any (·.contains record)

/-- The sequence number of a record under a key. -/
def seqOf? (t : Tree K V) (key : K) (record : RecordKey) : Option Nat :=
  (t.bucket? key).bind (·.seqOf? record)

/-- The sequence number an entry of a record ends up with when inserted under a key. -/
def placedSeq (t : Tree K V) (key : K) (seq : Nat) (record : RecordKey) : Nat :=
  (t.seqOf? key record).getD seq

/-- Appends an entry to the bucket of a key in a sorted list of leaves. A new bucket is made
where the key belongs; an existing one keeps the key it was made with.
-/
def insertLeaf (key : K) (seq : Nat) (entry : Entry V) (revision : Nat)
    : List (Leaf K V) → List (Leaf K V)
  | [] => [{ key, bucket := Bucket.empty.append seq entry, revision }]
  | leaf :: rest =>
    match compare key leaf.key with
    | .lt => { key, bucket := Bucket.empty.append seq entry, revision } :: leaf :: rest
    | .eq => { leaf with bucket := leaf.bucket.append seq entry, revision } :: rest
    | .gt => leaf :: insertLeaf key seq entry revision rest

/-- Takes a record out of the bucket of a key in a sorted list of leaves. A bucket that becomes
empty goes with its last entry.
-/
def eraseLeaf (key : K) (record : RecordKey) (revision : Nat)
    : List (Leaf K V) → List (Leaf K V)
  | [] => []
  | leaf :: rest =>
    match compare key leaf.key with
    | .lt => leaf :: rest
    | .eq =>
      let bucket := leaf.bucket.erase record
      if bucket.isEmpty then rest else { leaf with bucket, revision } :: rest
    | .gt => leaf :: eraseLeaf key record revision rest

/-- Puts an entry under a key, at the end of its bucket or in the place of the record's entry
there.
-/
def insert (t : Tree K V) (key : K) (seq : Nat) (entry : Entry V) : Tree K V :=
  { leaves := insertLeaf key seq entry (t.version + 1) t.leaves
    size := if t.holds key entry.record then t.size else t.size + 1
    version := t.version + 1 }

/-- Takes the entry of a record from under a key. Without such an entry the tree stays as it is. -/
def erase (t : Tree K V) (key : K) (record : RecordKey) : Tree K V :=
  if t.holds key record then
    { leaves := eraseLeaf key record (t.version + 1) t.leaves
      size := t.size - 1
      version := t.version + 1 }
  else t

/-- The leaves at or beyond a starting endpoint, in the direction of travel. -/
def ahead (t : Tree K V) (direction : Direction) (start : Option (Endpoint K))
    : List (Leaf K V) :=
  direction.arrange (t.leaves.filter fun leaf => direction.reaches start leaf.key)

/-- The first leaf at or beyond a starting endpoint in the direction of travel. -/
def nextLeaf? (t : Tree K V) (direction : Direction) (start : Option (Endpoint K))
    : Option (Leaf K V) :=
  (t.ahead direction start).head?

/-- A private copy of the buckets in a descriptor's range. -/
def restrictedTo (t : Tree K V) (d : Descriptor K) : Tree K V :=
  match d.endpoints? with
  | none => copyOf []
  | some (lower, upper) =>
    copyOf (t.leaves.filter fun leaf =>
      Direction.ascending.reaches lower leaf.key && Direction.descending.reaches upper leaf.key)

/-- Another version of the tree has the bucket of a key just as this one has it. -/
def sharesBucket (t other : Tree K V) (key : K) : Bool :=
  match t.leaf? key, other.leaf? key with
  | some mine, some theirs => mine.revision == theirs.revision
  | _, _ => false

end Tree

end PagedIndex
