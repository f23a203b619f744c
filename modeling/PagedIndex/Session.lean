import PagedIndex.Scan.Flat
import PagedIndex.Store
import PagedIndex.Table

/-! Sessions: a store with the readers that are open on it under names. The session knows what its
readers keep of the index and tells every write.
-/

namespace PagedIndex

/-- An open reader. -/
inductive Reader (K : Type u) (V : Type v) where
  | scan (s : Scan K V)
  /-- A group that was set aside to be read later. -/
  | group (g : Group K V)
  | flat (f : FlatScan K V)
deriving DecidableEq, Repr

namespace Reader

/-- A scan keeps the tree it reads, unless it follows the index. -/
def holdingsOfScan (s : Scan K V) : Holdings K V :=
  { trees := s.view.kept?.toList, revisions := [] }

/-- A group keeps its bucket. -/
def holdingsOfGroup (g : Group K V) : Holdings K V :=
  { trees := [], revisions := [g.revision] }

/-- What a reader keeps. -/
def holdings : Reader K V → Holdings K V
  | scan s => holdingsOfScan s
  | group g => holdingsOfGroup g
  | flat f =>
    ((f.scan.map holdingsOfScan).getD .empty).append ((f.group.map holdingsOfGroup).getD .empty)

end Reader

/-- A store with its open readers. -/
structure Session (K : Type u) (V : Type v) where
  store : Store K V
  readers : Table String (Reader K V)
deriving DecidableEq, Repr

namespace Session

def ofStore (store : Store K V) : Session K V := { store, readers := .empty }

/-- What all open readers keep. -/
def holdings (s : Session K V) : Holdings K V :=
  s.readers.values.foldl (fun held reader => held.append reader.holdings) .empty

/-- Puts a reader under a name in place of the one it had. -/
def setReader (s : Session K V) (name : String) (reader : Reader K V) : Session K V :=
  { s with readers := s.readers.set name reader }

/-- Closes a reader and tells whether there was one. -/
def close (s : Session K V) (name : String) : Bool × Session K V :=
  (s.readers.contains name, { s with readers := s.readers.erase name })

/-- Drops every entry and forgets all cursors. Readers of earlier versions are not disturbed. -/
def clear (s : Session K V) : Session K V := { s with store := s.store.clear }

variable [Ord K]

/-! ## Writes -/

def insert (s : Session K V) (key : K) (entry : Entry V) : Session K V :=
  { s with store := s.store.insert s.holdings key entry }

def remove (s : Session K V) (key : K) (record : RecordKey) : Bool × Session K V :=
  let (found, store) := s.store.remove s.holdings key record
  (found, { s with store })

def update (s : Session K V) (oldKey newKey : K) (entry : Entry V) : Bool × Session K V :=
  let (found, store) := s.store.update s.holdings oldKey newKey entry
  (found, { s with store })

/-! ## Readers -/

/-- Opens a scan under a name and gives its view. A refused scan leaves the readers as they are. -/
def openScan (s : Session K V) (name : String) (d : Descriptor K)
    : Except Fault (View K V) × Session K V :=
  match s.store.scan d with
  | (.error fault, store) => (.error fault, { s with store })
  | (.ok scan, store) => (.ok scan.view, { s with store }.setReader name (.scan scan))

/-- Pulls the next group of the scan under a name; of no scan there is none. -/
def pull (s : Session K V) (name : String) : Option (Group K V) × Session K V :=
  match s.readers.get? name with
  | some (.scan scan) =>
    let (group, scan) := scan.next s.store.contents.tree
    (group, s.setReader name (.scan scan))
  | _ => (none, s)

/-- Pulls the next group of a scan and sets it aside unread under a name of its own. -/
def pullAside (s : Session K V) (name aside : String) : Option (Group K V) × Session K V :=
  match s.pull name with
  | (none, s) => (none, s)
  | (some group, s) => (some group, s.setReader aside (.group group))

/-- Goes on with the scan under a name entry by entry. -/
def flatten (s : Session K V) (name : String) : Session K V :=
  match s.readers.get? name with
  | some (.scan scan) => s.setReader name (.flat (.ofScan scan))
  | _ => s

/-- Takes at most `n` entries of the group or the flat scan under a name. -/
def take (s : Session K V) (name : String) (n : Nat) : List (Entry V) × Session K V :=
  match s.readers.get? name with
  | some (.group group) =>
    let (entries, group) := group.take n
    (entries, s.setReader name (.group group))
  | some (.flat flat) =>
    let (entries, flat) := flat.take s.store.contents.tree n
    (entries, s.setReader name (.flat flat))
  | _ => ([], s)

end Session

end PagedIndex
