import PagedIndex.Contents

/-! Writes and runs of writes. A write is carried out as a plan of changes, and in coherent contents
a plan has one of five shapes: nothing, one link, one unlink, an unlink that makes way for a link, or
a removal that misses.
-/

namespace PagedIndex

/-- A write to an index. -/
inductive Write (K : Type u) (V : Type v) where
  | insert (key : K) (entry : Entry V)
  | remove (key : K) (record : RecordKey)
  | update (oldKey newKey : K) (entry : Entry V)
  | clear
deriving DecidableEq, Repr

namespace Contents

variable [Ord K]

/-- The changes a write makes. Clearing drops everything at once and has none. -/
def plan (c : Contents K V) : Write K V → List (Change K V)
  | .insert key entry => c.insertion key entry
  | .remove key record => c.removal key record
  | .update oldKey newKey entry => c.relocation oldKey newKey entry
  | .clear => []

def perform (c : Contents K V) : Write K V → Contents K V
  | .insert key entry => c.insert key entry
  | .remove key record => c.remove key record
  | .update oldKey newKey entry => c.update oldKey newKey entry
  | .clear => c.cleared

/-- The contents after a run of writes. -/
def performAll (c : Contents K V) (writes : List (Write K V)) : Contents K V :=
  writes.foldl perform c

/-- Clearing apart, a write does what its plan says. -/
theorem perform_eq (c : Contents K V) (w : Write K V)
    : c.perform w = match w with
      | .clear => c.cleared
      | w => c.applyAll (c.plan w) := by
  cases w <;> rfl

end Contents

end PagedIndex
