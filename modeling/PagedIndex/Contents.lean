import PagedIndex.Locator
import PagedIndex.Tree

/-! Contents: the entries of an index, where each record is found, and the last sequence number.
Every write is a short list of changes, each of which links one entry or unlinks one record, so
that a record always has exactly one entry. A removal that finds nothing is listed as well, since
it is counted.
-/

namespace PagedIndex

/-- One step of a write to an index. -/
inductive Change (K : Type u) (V : Type v) where
  /-- An entry is put under a key. -/
  | link (key : K) (entry : Entry V)
  /-- The entry of a record is taken from under a key. -/
  | unlink (key : K) (record : RecordKey)
  /-- A record is looked for under a key in order to remove it and is not there. -/
  | miss (key : K) (record : RecordKey)
deriving DecidableEq, Repr

/-- What an index holds. -/
structure Contents (K : Type u) (V : Type v) where
  tree : Tree K V
  locator : Locator K
  /-- The last sequence number that was given out. None is given out twice. -/
  lastSeq : Nat
deriving DecidableEq, Repr

namespace Contents

def empty (retiredCapacity : Nat) : Contents K V :=
  { tree := .empty, locator := .empty retiredCapacity, lastSeq := 0 }

/-- Drops every entry and forgets all removed ones, but goes on counting. -/
def cleared (c : Contents K V) : Contents K V :=
  { c with tree := c.tree.cleared, locator := c.locator.cleared }

variable [Ord K]

/-- Makes one change to tree and locator together. -/
def apply (c : Contents K V) : Change K V → Contents K V
  | .link key entry =>
    let seq := c.lastSeq + 1
    let placed := c.tree.placedSeq key seq entry.record
    { tree := c.tree.insert key seq entry
      locator := c.locator.place entry.record ⟨key, placed⟩
      lastSeq := seq }
  | .unlink key record =>
    { c with tree := c.tree.erase key record, locator := c.locator.retire record }
  | .miss _ _ => c

/-- Makes changes one after the other. -/
def applyAll (c : Contents K V) (changes : List (Change K V)) : Contents K V :=
  changes.foldl apply c

/-- The changes that take a record from under a key, or miss it if it is not there. -/
def removal (c : Contents K V) (key : K) (record : RecordKey) : List (Change K V) :=
  if c.tree.holds key record then [.unlink key record] else [.miss key record]

/-- The changes that put an entry under a key. If its record lives under another key, it is taken
from there first.
-/
def insertion (c : Contents K V) (key : K) (entry : Entry V) : List (Change K V) :=
  match c.locator.live? entry.record with
  | none => [.link key entry]
  | some p =>
    if (compare p.key key).isEq then [.link key entry]
    else c.removal p.key entry.record ++ [.link key entry]

/-- The changes that move an entry from one key to another, or just put it under the new key if it
is not under the old one. Then there is no removal that could miss.
-/
def relocation (c : Contents K V) (oldKey newKey : K) (entry : Entry V) : List (Change K V) :=
  let first := if c.tree.holds oldKey entry.record then c.removal oldKey entry.record else []
  first ++ (c.applyAll first).insertion newKey entry

def insert (c : Contents K V) (key : K) (entry : Entry V) : Contents K V :=
  c.applyAll (c.insertion key entry)

def remove (c : Contents K V) (key : K) (record : RecordKey) : Contents K V :=
  c.applyAll (c.removal key record)

def update (c : Contents K V) (oldKey newKey : K) (entry : Entry V) : Contents K V :=
  c.applyAll (c.relocation oldKey newKey entry)

/-- The key under which a record lives. -/
def keyOf? (c : Contents K V) (record : RecordKey) : Option K :=
  (c.locator.live? record).map (·.key)

/-- A record lives in the index. -/
def contains (c : Contents K V) (record : RecordKey) : Bool := (c.locator.live? record).isSome

end Contents

end PagedIndex
