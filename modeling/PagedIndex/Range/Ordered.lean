/-! Lists under an order in which different values may compare as equal: stable sorting, the
different values of a list, and its extremes.
-/

namespace PagedIndex.Ordered

variable [Ord α]

/-- The positions of a list in the order of the values there. Equal values keep their order. -/
def positions (xs : List α) : List Nat :=
  (xs.zipIdx.mergeSort fun a b => (compare a.1 b.1).isLE).map (·.2)

/-- Adds a value to an ascending list, in place of an equal one if there is one. -/
def insert (a : α) : List α → List α
  | [] => [a]
  | b :: rest =>
    match compare a b with
    | .lt => a :: b :: rest
    | .eq => a :: rest
    | .gt => b :: insert a rest

/-- The different values of a list in ascending order. Of equal values the last stands for all. -/
def distinct (xs : List α) : List α := xs.foldl (fun ys a => insert a ys) []

/-- The first of the least values. -/
def least? : List α → Option α
  | [] => none
  | a :: rest => some (rest.foldl (fun least b => if (compare b least).isLT then b else least) a)

/-- The last of the greatest values. -/
def greatest? : List α → Option α
  | [] => none
  | a :: rest =>
    some (rest.foldl (fun greatest b => if (compare b greatest).isLT then greatest else b) a)

end PagedIndex.Ordered
