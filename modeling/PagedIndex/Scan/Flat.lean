import PagedIndex.Scan

/-! Flat scans: the entries of a scan one by one, without their grouping. -/

namespace PagedIndex

/-- A scan read entry by entry. It lets go of its scan once it has run dry. -/
structure FlatScan (K : Type u) (V : Type v) where
  scan : Option (Scan K V)
  /-- The group that is being read, kept until an entry beyond its last one is asked for. -/
  group : Option (Group K V)
deriving DecidableEq, Repr

namespace FlatScan

def ofScan (s : Scan K V) : FlatScan K V := { scan := some s, group := none }

variable [Ord K]

/-- Pulls one entry. A group that a scan yields has at least one. -/
def next (current : Tree K V) (f : FlatScan K V) : Option (Entry V) × FlatScan K V :=
  match f.group with
  | some { pending := entry :: pending, key, direction, revision } =>
    (some entry, { f with group := some { key, pending, direction, revision } })
  | _ =>
    match f.scan.map (·.next current) with
    | some (some group, scan) =>
      (group.pending.head?,
        { scan := some scan, group := some { group with pending := group.pending.tail } })
    | _ => (none, { scan := none, group := none })

/-- Pulls at most `n` entries. Asking for more than are left runs the scan dry. -/
def take (current : Tree K V) : Nat → FlatScan K V → List (Entry V) × FlatScan K V
  | 0, f => ([], f)
  | n + 1, f =>
    match f.next current with
    | (none, f) => ([], f)
    | (some entry, f) =>
      let (entries, f) := take current n f
      (entry :: entries, f)

/-- Every entry that is left when no write comes in between. -/
def entries (current : Tree K V) (f : FlatScan K V) : List (Entry V) :=
  (f.group.map (·.pending)).getD [] ++ (f.scan.map (·.entries current)).getD []

end FlatScan

end PagedIndex
