import PagedIndex.Contents
import PagedIndex.Config
import PagedIndex.Holdings
import PagedIndex.Metrics
import PagedIndex.Scan

/-! Stores: an index with its settings, its counters and the log lines it has written. Writes are
told what open readers keep, and a scan is opened in four steps: the descriptor is validated, the
cursor resolved, a view opened and the scan counted.
-/

namespace PagedIndex

/-- An index that keeps count of what is done with it. -/
structure Store (K : Type u) (V : Type v) where
  contents : Contents K V
  visibility : Visibility
  /-- The page size when a reader names none; never zero. -/
  pageSize : Nat
  logger : Log.Logger
  metrics : Metrics
  /-- The log lines written so far, without their newlines. -/
  journal : List String
deriving DecidableEq, Repr

namespace Store

/-- Writes an event to the log. -/
def log (s : Store K V) (event : Log.Event) (fields : List Log.Field) : Store K V :=
  { s with journal := s.journal ++ s.logger.lines event fields }

def count (s : Store K V) (counter : Counter) : Store K V :=
  { s with metrics := s.metrics.count counter }

/-- An empty store. Page size zero is taken as one. -/
def create (visibility : Visibility) (retiredCapacity pageSize : Nat) (logger : Log.Logger)
    : Store K V :=
  let store : Store K V :=
    { contents := .empty retiredCapacity, visibility, pageSize := max pageSize 1, logger,
      metrics := {}, journal := [] }
  store.log .indexCreated [
    ("retired_cursor_capacity", toString retiredCapacity),
    ("visibility", visibility.name)]

/-- An empty store with the given visibility and otherwise default settings. -/
def withVisibility (visibility : Visibility) : Store K V :=
  create visibility 4096 1000 default

/-- An empty store as a configuration describes it, if it is valid. -/
def ofConfig (config : Config) : Except Config.Defect (Store K V) := do
  config.validate
  let logger ← config.logger
  return create config.visibility config.retiredCapacity.toNat config.pageSize.toNat logger

/-- The number of entries. -/
def size (s : Store K V) : Nat := s.contents.tree.size

def isEmpty (s : Store K V) : Bool := s.size == 0

/-- The number of different index keys. -/
def keyCount (s : Store K V) : Nat := s.contents.tree.keyCount

variable [Ord K]

/-! ## Writes -/

/-- Counts the copies that writing to the bucket of a key costs: of the tree if its current version
is kept, and of the bucket if that is.
-/
def chargeCopies (held : Holdings K V) (c : Contents K V) (m : Metrics) (key : K) : Metrics :=
  (m.countIf (held.holdsVersion c.tree) .treeCopies).countIf
    (held.holdsBucket c.tree key) .bucketCopies

/-- Counts one change and the copies it costs. A removal that misses writes to nothing. -/
def charge (held : Holdings K V) (c : Contents K V) (m : Metrics) : Change K V → Metrics
  | .link key _ => (chargeCopies held c m key).count .inserts
  | .unlink key _ => (chargeCopies held c m key).count .removes
  | .miss _ _ => m.count .noopRemoves

/-- Makes changes to the contents and counts each of them. -/
def write (s : Store K V) (held : Holdings K V) (changes : List (Change K V)) : Store K V :=
  let (contents, metrics) := changes.foldl
    (fun (c, m) change => (c.apply change, charge held c m change)) (s.contents, s.metrics)
  { s with contents, metrics }

/-- Puts an entry under a key, moving its record there from any other key. -/
def insert (s : Store K V) (held : Holdings K V) (key : K) (entry : Entry V) : Store K V :=
  s.write held (s.contents.insertion key entry)

/-- Takes a record from under a key and tells whether it was there. -/
def remove (s : Store K V) (held : Holdings K V) (key : K) (record : RecordKey)
    : Bool × Store K V :=
  (s.contents.tree.holds key record, s.write held (s.contents.removal key record))

/-- Moves an entry from one key to another and tells whether it was under the old one. It is under
the new key afterwards in any case.
-/
def update (s : Store K V) (held : Holdings K V) (oldKey newKey : K) (entry : Entry V)
    : Bool × Store K V :=
  (s.contents.tree.holds oldKey entry.record,
    s.write held (s.contents.relocation oldKey newKey entry))

/-- Drops every entry and forgets all cursors. -/
def clear (s : Store K V) : Store K V :=
  ({ s with contents := s.contents.cleared }).log .indexCleared [("entries", toString s.size)]

/-! ## Scans -/

/-- Counts and logs a refusal. -/
def reject (s : Store K V) (fault : Fault) : Store K V :=
  (s.count .scansRejected).log .scanRejected [("code", fault.code), ("reason", fault.message)]

/-- Opens the view that the store's visibility prescribes and a scan of it. A private copy is
counted by its buckets.
-/
def openScan (s : Store K V) (d : Descriptor K) (resume : Option (Position K))
    : Scan K V × Store K V :=
  let s := s.count .scans
  match s.visibility with
  | .inPlace => (.start .live d resume, s)
  | .copyOnWrite => (.start (.pinned s.contents.tree) d resume, s)
  | .copyOnRead =>
    let copy := s.contents.tree.restrictedTo d
    (.start (.copied copy) d resume,
      { s with metrics := s.metrics.add .readCopies (UInt64.ofNat copy.keyCount) })

/-- Finds the position that a cursor stands for, and counts and logs the outcome. -/
def resolve (s : Store K V) (cursor : Cursor) : Except Fault (Position K) × Store K V :=
  let fields := [("record_key", cursor.record.toHex)]
  match s.contents.locator.resolve cursor with
  | some (.live p) => (.ok p, s.count .cursorResumes)
  | some (.retired p) =>
    (.ok p, (s.count .staleCursorResumes).log .cursorStaleResume fields)
  | none =>
    (.error (.unknownCursor cursor.record.toHex),
      (s.count .unknownCursors).log .cursorUnknown fields)

/-- Opens a scan. The cursor of an empty range is not looked at. -/
def scan (s : Store K V) (d : Descriptor K) : Except Fault (Scan K V) × Store K V :=
  match d.validate with
  | .error fault => (.error fault, s.reject fault)
  | .ok () =>
    if d.isEmptyRange then (.ok (.nothing d.direction), s.count .scans)
    else
      match d.cursor with
      | none =>
        let (scan, s) := s.openScan d none
        (.ok scan, s)
      | some cursor =>
        match s.resolve cursor with
        | (.error fault, s) => (.error fault, s)
        | (.ok p, s) =>
          let (scan, s) := s.openScan d (some p)
          (.ok scan, s)

/-- The groups of a scan that is read to its end at once. -/
def scanGroups (s : Store K V) (d : Descriptor K) : Except Fault (List (Group K V)) × Store K V :=
  let (scan, s) := s.scan d
  (scan.map (·.groups s.contents.tree), s)

/-- The entries of a scan that is read to its end at once. -/
def scanEntries (s : Store K V) (d : Descriptor K)
    : Except Fault (List (Entry V)) × Store K V :=
  let (scan, s) := s.scan d
  (scan.map (·.entries s.contents.tree), s)

end Store

end PagedIndex
