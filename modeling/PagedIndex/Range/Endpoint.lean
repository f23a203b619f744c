/-! Directions of travel through an ordered set of keys, and the endpoints that bound it. An
absent endpoint leaves its side unbounded.
-/

namespace PagedIndex

/-- Ascending goes from the lowest key and the oldest entry on, descending the other way round. -/
inductive Direction where
  | ascending
  | descending
deriving DecidableEq, Repr

namespace Direction

/-- The order in which keys are met: the order of the keys or its reverse. -/
def compare [Ord K] : Direction → K → K → Ordering
  | ascending, a, b => Ord.compare a b
  | descending, a, b => Ord.compare b a

/-- A list in ascending order, put into the order of travel. -/
def arrange : Direction → List α → List α
  | ascending, xs => xs
  | descending, xs => xs.reverse

instance : Inhabited Direction := ⟨ascending⟩

def isDescending : Direction → Bool
  | ascending => false
  | descending => true

def name : Direction → String
  | ascending => "Ascending"
  | descending => "Descending"

end Direction

/-- One end of a range of keys. -/
structure Endpoint (K : Type u) where
  key : K
  inclusive : Bool
deriving DecidableEq, Repr

namespace Endpoint

/-- An endpoint that belongs to the range. -/
def included (key : K) : Endpoint K := ⟨key, true⟩

/-- An endpoint that the range stops short of. -/
def excluded (key : K) : Endpoint K := ⟨key, false⟩

/-- Two endpoints with equal keys and the same kind of end. -/
def agrees [Ord K] (a b : Endpoint K) : Bool :=
  (compare a.key b.key).isEq && a.inclusive == b.inclusive

end Endpoint

namespace Direction

/-- A key is at or beyond a starting endpoint, seen in the direction of travel. -/
def reaches [Ord K] (direction : Direction) (start : Option (Endpoint K)) (key : K) : Bool :=
  match start with
  | none => true
  | some e =>
    match direction.compare key e.key with
    | .lt => false
    | .eq => e.inclusive
    | .gt => true

/-- The stricter of two starting endpoints for travel in one direction: the one further along,
and of two at the same key the one that excludes it.
-/
def laterStart [Ord K] (direction : Direction)
    : Option (Endpoint K) → Option (Endpoint K) → Option (Endpoint K)
  | none, b => b
  | a, none => a
  | some a, some b =>
    match direction.compare a.key b.key with
    | .gt => some a
    | .lt => some b
    | .eq => if a.inclusive then some b else some a

end Direction

end PagedIndex
