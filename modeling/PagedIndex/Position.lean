import PagedIndex.Bucket

/-! Positions: where an entry stands in scan order. Positions are ordered by index key and then by
sequence number, whatever version of the index is read.
-/

namespace PagedIndex

/-- The place of an entry: the key of its bucket and its sequence number. -/
structure Position (K : Type u) where
  key : K
  seq : Nat
deriving DecidableEq, Repr

namespace Position

/-- The order in which positions are met in the direction of travel. -/
def compare [Ord K] (direction : Direction) (a b : Position K) : Ordering :=
  (direction.compare a.key b.key).then (direction.compare a.seq b.seq)

end Position

end PagedIndex
