import PagedIndex.Position
import PagedIndex.Tree

/-! Scans: lazy traversals of an index, one group of entries for each key that is met. A scan only
remembers how far it has come, so what it reads may change between two groups.
-/

namespace PagedIndex

/-- What a scan reads. -/
inductive View (K : Type u) (V : Type v) where
  /-- The current version of the index, looked up anew for every group. -/
  | live
  /-- The version that was current when the scan was opened. -/
  | pinned (tree : Tree K V)
  /-- A private copy. -/
  | copied (tree : Tree K V)
deriving DecidableEq, Repr

namespace View

/-- The tree that is read when `current` is the current version of the index. -/
def tree (current : Tree K V) : View K V → Tree K V
  | live => current
  | pinned t => t
  | copied t => t

/-- The text that tells a view that follows the index from a frozen one. -/
def describe : View K V → String
  | live => "TreeView::Live"
  | pinned _ | copied _ => "TreeView::Pinned"

/-- The tree that a view keeps, if it does not follow the index. -/
def kept? : View K V → Option (Tree K V)
  | live => none
  | pinned t | copied t => some t

end View

/-- The entries of one key that a scan has reached and that are not consumed yet. -/
structure Group (K : Type u) (V : Type v) where
  key : K
  /-- The entries to come, in scan order. -/
  pending : List (Entry V)
  direction : Direction
  /-- The bucket that is being read, by its revision. -/
  revision : Nat
deriving DecidableEq, Repr

namespace Group

def remaining (g : Group K V) : Nat := g.pending.length

/-- Consumes at most `n` entries. -/
def take (g : Group K V) (n : Nat) : List (Entry V) × Group K V :=
  (g.pending.take n, { g with pending := g.pending.drop n })

/-- The state of a group in messages for people. -/
def describe (g : Group K V) : String :=
  "BucketEntries \x7b remaining: " ++ toString g.remaining ++ ", direction: "
    ++ g.direction.name ++ " \x7d"

end Group

/-- A traversal of an index that has come up to a frontier. -/
structure Scan (K : Type u) (V : Type v) where
  view : View K V
  descriptor : Descriptor K
  /-- Where the next group is looked for. -/
  frontier : Option (Endpoint K)
  /-- The position to resume after, until the first bucket is met. -/
  resume : Option (Position K)
  done : Bool
deriving DecidableEq, Repr

namespace Scan

/-- A scan that yields nothing. -/
def nothing (direction : Direction) : Scan K V :=
  { view := .copied (.copyOf []), descriptor := .all direction, frontier := none, resume := none,
    done := true }

variable [Ord K]

/-- A scan that has not yielded anything yet. It starts from the near end of its range or, if that
is further along, from the bucket of the position it resumes after.
-/
def start (view : View K V) (d : Descriptor K) (resume : Option (Position K)) : Scan K V :=
  { view, descriptor := d, resume
    frontier :=
      match resume with
      | none => d.nearEnd
      | some p => d.direction.laterStart d.nearEnd (some (.included p.key))
    done := d.isEmptyRange }

/-- The entries of a leaf that a scan yields, in scan order: all of them, or in the bucket of the
position it resumes after those beyond the position.
-/
def pendingIn (s : Scan K V) (leaf : Leaf K V) : List (Entry V) :=
  let direction := s.descriptor.direction
  let (front, back) :=
    match s.resume with
    | none => (0, leaf.bucket.size)
    | some p =>
      if (compare p.key leaf.key).isEq then leaf.bucket.beyond direction p.seq
      else (0, leaf.bucket.size)
  direction.arrange ((leaf.bucket.entries.take back).drop front)

/-- The group that a leaf gives. -/
def groupOf (s : Scan K V) (leaf : Leaf K V) : Group K V :=
  { key := leaf.key
    pending := s.pendingIn leaf
    direction := s.descriptor.direction
    revision := leaf.revision }

/-- The scan after it has met a leaf. The position to resume after only matters in the first leaf
that is met.
-/
def passed (s : Scan K V) (leaf : Leaf K V) : Scan K V :=
  { s with frontier := some (.excluded leaf.key), resume := none }

/-- The leaves that are still ahead of a scan, when `current` is the current version of the index.
Those beyond the far end of its range are among them.
-/
def ahead (current : Tree K V) (s : Scan K V) : List (Leaf K V) :=
  if s.done then [] else (s.view.tree current).ahead s.descriptor.direction s.frontier

/-- Goes through leaves up to the first that has something to yield. -/
def advance (s : Scan K V) : List (Leaf K V) → Option (Group K V) × Scan K V
  | [] => (none, { s with done := true })
  | leaf :: rest =>
    if s.descriptor.isPastFarEnd leaf.key then (none, { s with done := true })
    else if (s.pendingIn leaf).isEmpty then (s.passed leaf).advance rest
    else (some (s.groupOf leaf), s.passed leaf)

/-- Pulls the next group, with `current` as the current version of the index. -/
def next (current : Tree K V) (s : Scan K V) : Option (Group K V) × Scan K V :=
  s.advance (s.ahead current)

/-- The groups of some leaves, up to the far end of the range. -/
def groupsOf (s : Scan K V) : List (Leaf K V) → List (Group K V)
  | [] => []
  | leaf :: rest =>
    if s.descriptor.isPastFarEnd leaf.key then []
    else if (s.pendingIn leaf).isEmpty then (s.passed leaf).groupsOf rest
    else s.groupOf leaf :: (s.passed leaf).groupsOf rest

/-- Every group that is left when no write comes in between. -/
def groups (current : Tree K V) (s : Scan K V) : List (Group K V) := s.groupsOf (s.ahead current)

/-- Every entry that is left when no write comes in between. -/
def entries (current : Tree K V) (s : Scan K V) : List (Entry V) :=
  (s.groups current).flatMap (·.pending)

end Scan

end PagedIndex
