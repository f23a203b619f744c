import PagedIndex.Json.Writer

/-! Counters of what an index has done. They only grow, and wrap at the end of a machine word. -/

namespace PagedIndex

/-- The counted happenings. -/
inductive Counter where
  | inserts
  | removes
  /-- Removals that found nothing to remove. -/
  | noopRemoves
  | scans
  /-- Scans refused for their arguments. -/
  | scansRejected
  /-- Scans resumed after a live entry. -/
  | cursorResumes
  /-- Scans resumed after a removed entry. -/
  | staleCursorResumes
  | unknownCursors
  /-- Trees copied because a scan held the current version. -/
  | treeCopies
  /-- Buckets copied because a scan or a group held them. -/
  | bucketCopies
  /-- Buckets copied for a scan when it was opened. -/
  | readCopies
deriving DecidableEq, Repr

namespace Counter

def name : Counter → String
  | inserts => "inserts"
  | removes => "removes"
  | noopRemoves => "noop_removes"
  | scans => "scans"
  | scansRejected => "scans_rejected"
  | cursorResumes => "cursor_resumes"
  | staleCursorResumes => "stale_cursor_resumes"
  | unknownCursors => "unknown_cursors"
  | treeCopies => "tree_copies"
  | bucketCopies => "bucket_copies"
  | readCopies => "read_copies"

/-- Every counter, in the order in which they are reported. -/
def all : List Counter :=
  [inserts, removes, noopRemoves, scans, scansRejected, cursorResumes, staleCursorResumes,
    unknownCursors, treeCopies, bucketCopies, readCopies]

end Counter

/-- The values of the counters. -/
structure Metrics where
  inserts : UInt64 := 0
  removes : UInt64 := 0
  noopRemoves : UInt64 := 0
  scans : UInt64 := 0
  scansRejected : UInt64 := 0
  cursorResumes : UInt64 := 0
  staleCursorResumes : UInt64 := 0
  unknownCursors : UInt64 := 0
  treeCopies : UInt64 := 0
  bucketCopies : UInt64 := 0
  readCopies : UInt64 := 0
deriving DecidableEq, Repr

namespace Metrics

def get (m : Metrics) : Counter → UInt64
  | .inserts => m.inserts
  | .removes => m.removes
  | .noopRemoves => m.noopRemoves
  | .scans => m.scans
  | .scansRejected => m.scansRejected
  | .cursorResumes => m.cursorResumes
  | .staleCursorResumes => m.staleCursorResumes
  | .unknownCursors => m.unknownCursors
  | .treeCopies => m.treeCopies
  | .bucketCopies => m.bucketCopies
  | .readCopies => m.readCopies

/-- Adds to one counter. -/
def add (m : Metrics) (counter : Counter) (n : UInt64) : Metrics :=
  match counter with
  | .inserts => { m with inserts := m.inserts + n }
  | .removes => { m with removes := m.removes + n }
  | .noopRemoves => { m with noopRemoves := m.noopRemoves + n }
  | .scans => { m with scans := m.scans + n }
  | .scansRejected => { m with scansRejected := m.scansRejected + n }
  | .cursorResumes => { m with cursorResumes := m.cursorResumes + n }
  | .staleCursorResumes => { m with staleCursorResumes := m.staleCursorResumes + n }
  | .unknownCursors => { m with unknownCursors := m.unknownCursors + n }
  | .treeCopies => { m with treeCopies := m.treeCopies + n }
  | .bucketCopies => { m with bucketCopies := m.bucketCopies + n }
  | .readCopies => { m with readCopies := m.readCopies + n }

/-- Counts one happening. -/
def count (m : Metrics) (counter : Counter) : Metrics := m.add counter 1

/-- Counts one happening if a condition holds. -/
def countIf (m : Metrics) (condition : Bool) (counter : Counter) : Metrics :=
  if condition then m.count counter else m

theorem get_add (m : Metrics) (counter other : Counter) (n : UInt64)
    : (m.add counter n).get other
      = if other = counter then m.get counter + n else m.get other := by
  cases counter <;> cases other <;> rfl

/-- The counters as a JSON object. -/
def toJson (m : Metrics) : Json.Value :=
  .ofMembers (Counter.all.map fun counter => (counter.name, .ofNat (m.get counter).toNat))

end Metrics

end PagedIndex
