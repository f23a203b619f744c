import PagedIndex.Range.Ordered
import PagedIndex.Store

/-! Lookups: the entries of some keys in ascending order. Without a cursor nothing is refused. -/

namespace PagedIndex

namespace Store

variable [Ord K]

/-- The entries of a scan, or none if it is refused. -/
def lookup (s : Store K V) (d : Descriptor K) : List (Entry V) × Store K V :=
  let (entries, s) := s.scanEntries d
  (entries.toOption.getD [], s)

/-- The entries under one key. -/
def lookupEqual (s : Store K V) (value : K) : List (Entry V) × Store K V :=
  s.lookup (.equality value .ascending)

/-- The entries under any of some keys, each key looked up once. -/
def lookupAny (s : Store K V) (values : List K) : List (Entry V) × Store K V :=
  (Ordered.distinct values).foldl
    (fun (found, s) value =>
      let (entries, s) := s.lookupEqual value
      (found ++ entries, s))
    ([], s)

/-- The entries under the keys on one side of a value. -/
def lookupComparison (s : Store K V) (c : Comparison) (value : K) : List (Entry V) × Store K V :=
  s.lookup (.comparison c value .ascending)

/-- The entries under the keys between two ends. -/
def lookupRange (s : Store K V) (lower upper : Endpoint K) : List (Entry V) × Store K V :=
  s.lookup (.range lower upper .ascending)

end Store

end PagedIndex
