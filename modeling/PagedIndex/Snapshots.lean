import PagedIndex.Holdings
import PagedIndex.Table

/-! Snapshots: a tree under writing together with versions of it and copies of its ranges that are
kept under names. A version shares its buckets with the tree until one of them is written to.
-/

namespace PagedIndex

/-- A kept tree: a version of the main tree, or a private copy. -/
inductive Snapshot (K : Type u) (V : Type v) where
  | version (tree : Tree K V)
  | copy (tree : Tree K V)
deriving DecidableEq, Repr

def Snapshot.tree : Snapshot K V → Tree K V
  | version t => t
  | copy t => t

/-- A tree with the snapshots that are kept of it. -/
structure Snapshots (K : Type u) (V : Type v) where
  main : Tree K V
  kept : Table String (Snapshot K V)
deriving DecidableEq, Repr

namespace Snapshots

def empty : Snapshots K V := { main := .empty, kept := .empty }

/-- What is kept beside the main tree. -/
def holdings (s : Snapshots K V) : Holdings K V :=
  { trees := s.kept.values.map (·.tree), revisions := [] }

/-- The snapshot under a name, or the main tree as it is now. -/
def on? (s : Snapshots K V) : Option String → Option (Snapshot K V)
  | none => some (.version s.main)
  | some name => s.kept.get? name

/-- Keeps a snapshot under a name in place of the one it had. -/
def keep (s : Snapshots K V) (name : String) (snapshot : Snapshot K V) : Snapshots K V :=
  { s with kept := s.kept.set name snapshot }

/-- Lets go of a snapshot and tells whether there was one. -/
def drop (s : Snapshots K V) (name : String) : Bool × Snapshots K V :=
  (s.kept.contains name, { s with kept := s.kept.erase name })

variable [Ord K]

/-- Inserts into the main tree. Gives the sequence number that the entry ends up with and whether
a kept tree still had the bucket.
-/
def insert (s : Snapshots K V) (key : K) (seq : Nat) (entry : Entry V)
    : (Nat × Bool) × Snapshots K V :=
  ((s.main.placedSeq key seq entry.record, s.holdings.holdsBucket s.main key),
    { s with main := s.main.insert key seq entry })

/-- Removes from the main tree. Gives the sequence number of the removed entry and whether a kept
tree still had the bucket, or nothing if there was no such entry.
-/
def erase (s : Snapshots K V) (key : K) (record : RecordKey)
    : Option (Nat × Bool) × Snapshots K V :=
  ((s.main.seqOf? key record).map fun seq => (seq, s.holdings.holdsBucket s.main key),
    { s with main := s.main.erase key record })

end Snapshots

end PagedIndex
