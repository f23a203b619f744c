import PagedIndex.Cursor
import PagedIndex.Position
import PagedIndex.Table

/-! Locators: from record keys to positions, with a bounded memory of the positions that removed
records had last. The oldest retirement is forgotten first.

Retirements wait in a queue in the order they happened. A record that comes back leaves its place
in the queue behind, so every retirement carries a stamp and a place counts only while the stamp
is that of the record's latest retirement. When too many places no longer count, they are dropped.
-/

namespace PagedIndex

/-- What a cursor resolves to: the position of a live entry or the last one of a removed entry. -/
inductive Resolution (K : Type u) where
  | live (position : Position K)
  | retired (position : Position K)
deriving DecidableEq, Repr

namespace Resolution

def position : Resolution K → Position K
  | live p => p
  | retired p => p

/-- The cursor names a removed entry. -/
def isStale : Resolution K → Bool
  | live _ => false
  | retired _ => true

end Resolution

/-- The last position of a removed record, with the stamp of its removal. -/
structure Retirement (K : Type u) where
  position : Position K
  stamp : Nat
deriving DecidableEq, Repr

/-- Positions of live records and of the records removed last. -/
structure Locator (K : Type u) where
  /-- How many removed records are remembered. -/
  capacity : Nat
  live : Table RecordKey (Position K)
  retired : Table RecordKey (Retirement K)
  /-- Records with the stamps of their retirements, the earliest first. -/
  queue : List (RecordKey × Nat)
  /-- The stamp of the latest retirement. -/
  lastStamp : Nat
deriving DecidableEq, Repr

namespace Locator

def empty (capacity : Nat) : Locator K :=
  { capacity, live := .empty, retired := .empty, queue := [], lastStamp := 0 }

def live? (l : Locator K) (record : RecordKey) : Option (Position K) := l.live.get? record

/-- The number of removed records that are remembered. -/
def retiredCount (l : Locator K) : Nat := l.retired.size

/-- A place in the queue stands for the latest retirement of its record. -/
def isCurrent (retired : Table RecordKey (Retirement K)) (place : RecordKey × Nat) : Bool :=
  (retired.get? place.1).any (·.stamp == place.2)

/-- A record is live at a position from now on. -/
def place (l : Locator K) (record : RecordKey) (position : Position K) : Locator K :=
  { l with live := l.live.set record position, retired := l.retired.erase record }

/-- Forgets the earliest retirements until at most `capacity` are left. -/
def evict (capacity : Nat) (retired : Table RecordKey (Retirement K))
    : List (RecordKey × Nat) → Table RecordKey (Retirement K) × List (RecordKey × Nat)
  | [] => (retired, [])
  | place :: rest =>
    if retired.size ≤ capacity then (retired, place :: rest)
    else evict capacity (if isCurrent retired place then retired.erase place.1 else retired) rest

/-- The length up to which the queue may grow before places that no longer count are dropped:
twice the capacity, within a machine word.
-/
def queueLimit (capacity : Nat) : Nat := min (2 * capacity) (UInt64.size - 1)

/-- Moves a live record to the removed ones. A record that is not live is left alone, and nothing
is remembered at capacity zero.
-/
def retire (l : Locator K) (record : RecordKey) : Locator K :=
  match l.live.get? record with
  | none => l
  | some position =>
    let live := l.live.erase record
    if l.capacity = 0 then { l with live }
    else
      let stamp := l.lastStamp + 1
      let (retired, queue) :=
        evict l.capacity (l.retired.set record ⟨position, stamp⟩) (l.queue ++ [(record, stamp)])
      let queue :=
        if queueLimit l.capacity < queue.length then queue.filter (isCurrent retired) else queue
      { l with live, retired, queue, lastStamp := stamp }

/-- The position a cursor stands for, a live one before a remembered one. -/
def resolve (l : Locator K) (cursor : Cursor) : Option (Resolution K) :=
  match l.live.get? cursor.record with
  | some position => some (.live position)
  | none => (l.retired.get? cursor.record).map fun r => .retired r.position

/-- Forgets every record. -/
def cleared (l : Locator K) : Locator K :=
  { l with live := .empty, retired := .empty, queue := [] }

end Locator

end PagedIndex
