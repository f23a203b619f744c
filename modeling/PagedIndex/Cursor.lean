import PagedIndex.Record

/-! Cursors: where a reader left off, named by the record of the last entry it received. A cursor
never holds the index key, so it survives the removal of its entry.
-/

namespace PagedIndex

/-- The record of an entry that was delivered before. -/
structure Cursor where
  record : RecordKey
deriving DecidableEq, Repr

/-- The cursor that resumes after an entry. -/
def Entry.cursor (entry : Entry V) : Cursor := ⟨entry.record⟩

end PagedIndex
