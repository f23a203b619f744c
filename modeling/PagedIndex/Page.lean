import PagedIndex.Cursor

/-! Pages: a bounded batch of a scan's entries and, when more follow, the cursor to go on with. -/

namespace PagedIndex

/-- A batch of entries. -/
structure Page (V : Type u) where
  entries : List (Entry V)
  /-- Resumes after the last entry; absent when nothing follows. -/
  cursor : Option Cursor
deriving DecidableEq, Repr

namespace Page

/-- The first page of a list of entries. It has a cursor if it is full and a further entry
follows.
-/
def collect (entries : List (Entry V)) (limit : Nat) : Page V :=
  let page := entries.take limit
  { entries := page
    cursor := if (entries.drop limit).isEmpty then none else page.getLast?.map (·.cursor) }

def hasMore (p : Page V) : Bool := p.cursor.isSome

def size (p : Page V) : Nat := p.entries.length

def isEmpty (p : Page V) : Bool := p.entries.isEmpty

end Page

end PagedIndex
