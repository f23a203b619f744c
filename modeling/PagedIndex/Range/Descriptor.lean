import PagedIndex.Cursor
import PagedIndex.Fault
import PagedIndex.Range.Endpoint

/-! Scan descriptors: every kind of scan as a range of keys, a direction and, to resume an earlier
scan, a cursor.
-/

namespace PagedIndex

/-- How a key compares with a fixed value. -/
inductive Comparison where
  | greater
  | greaterOrEqual
  | less
  | lessOrEqual
deriving DecidableEq, Repr

/-- The lower and the upper endpoint of the keys that compare so with a value. -/
def Comparison.endpoints (value : K)
    : Comparison → Option (Endpoint K) × Option (Endpoint K)
  | greater => (some (.excluded value), none)
  | greaterOrEqual => (some (.included value), none)
  | less => (none, some (.excluded value))
  | lessOrEqual => (none, some (.included value))

/-- A request to scan the keys between two endpoints. -/
structure Descriptor (K : Type u) where
  lower : Option (Endpoint K)
  upper : Option (Endpoint K)
  direction : Direction
  cursor : Option Cursor
deriving DecidableEq, Repr

namespace Descriptor

/-- The scan between two optional endpoints. -/
def bounded (lower upper : Option (Endpoint K)) (direction : Direction) : Descriptor K :=
  { lower, upper, direction, cursor := none }

/-- The scan of every key. -/
def all (direction : Direction) : Descriptor K := bounded none none direction

/-- The scan of one key. -/
def equality (value : K) (direction : Direction) : Descriptor K :=
  bounded (some (.included value)) (some (.included value)) direction

/-- The scan of the keys on one side of a value. -/
def comparison (c : Comparison) (value : K) (direction : Direction) : Descriptor K :=
  bounded (c.endpoints value).1 (c.endpoints value).2 direction

/-- The scan between two given endpoints. -/
def range (lower upper : Endpoint K) (direction : Direction) : Descriptor K :=
  bounded (some lower) (some upper) direction

/-- The same range and direction with another cursor, or with none. -/
def resumed (d : Descriptor K) (cursor : Option Cursor) : Descriptor K := { d with cursor }

/-- Both ends are given and neither belongs to the range. -/
def isOpenRange (d : Descriptor K) : Bool :=
  match d.lower, d.upper with
  | some lower, some upper => !lower.inclusive && !upper.inclusive
  | _, _ => false

/-- A cursor on an open range is refused before anything is read. -/
def validate (d : Descriptor K) : Except Fault Unit :=
  if d.cursor.isSome && d.isOpenRange then .error .cursorOnOpenRange else .ok ()

/-- The end a scan starts from. -/
def nearEnd (d : Descriptor K) : Option (Endpoint K) :=
  match d.direction with
  | .ascending => d.lower
  | .descending => d.upper

variable [Ord K]

/-- No key satisfies both ends: they are crossed, or equal and not both inclusive. -/
def isEmptyRange (d : Descriptor K) : Bool :=
  match d.lower, d.upper with
  | some lower, some upper =>
    match compare lower.key upper.key with
    | .lt => false
    | .eq => !(lower.inclusive && upper.inclusive)
    | .gt => true
  | _, _ => false

/-- Both ends, unless the range is empty. -/
def endpoints? (d : Descriptor K) : Option (Option (Endpoint K) × Option (Endpoint K)) :=
  if d.isEmptyRange then none else some (d.lower, d.upper)

/-- A key lies before the lower end. -/
def isBelow (d : Descriptor K) (key : K) : Bool :=
  match d.lower with
  | none => false
  | some lower =>
    if lower.inclusive then (compare key lower.key).isLT else (compare key lower.key).isLE

/-- A key lies after the upper end. -/
def isAbove (d : Descriptor K) (key : K) : Bool :=
  match d.upper with
  | none => false
  | some upper =>
    if upper.inclusive then (compare key upper.key).isGT else (compare key upper.key).isGE

/-- A key satisfies both ends. -/
def contains (d : Descriptor K) (key : K) : Bool := !d.isBelow key && !d.isAbove key

/-- A key lies beyond the end where a scan stops. -/
def isPastFarEnd (d : Descriptor K) (key : K) : Bool :=
  match d.direction with
  | .ascending => d.isAbove key
  | .descending => d.isBelow key

/-- Two descriptors ask for the same scan. -/
def agrees (a b : Descriptor K) : Bool :=
  optionAgrees a.lower b.lower && optionAgrees a.upper b.upper
    && a.direction == b.direction && a.cursor == b.cursor
where
  /-- Both ends are absent, or both present and in agreement. -/
  optionAgrees : Option (Endpoint K) → Option (Endpoint K) → Bool
    | none, none => true
    | some x, some y => x.agrees y
    | _, _ => false

end Descriptor

end PagedIndex
