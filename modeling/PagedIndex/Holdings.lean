import PagedIndex.Tree

/-! Holdings: what open readers keep of an index. A write never changes what a reader keeps; it
works on a copy of the tree, of the bucket, or of both, and such copies are counted.
-/

namespace PagedIndex

/-- What readers keep: trees, be they versions of the index or private copies, and buckets by their
revisions.
-/
structure Holdings (K : Type u) (V : Type v) where
  trees : List (Tree K V)
  revisions : List Nat
deriving DecidableEq, Repr

namespace Holdings

/-- Nothing is kept. -/
def empty : Holdings K V := { trees := [], revisions := [] }

def append (a b : Holdings K V) : Holdings K V :=
  { trees := a.trees ++ b.trees, revisions := a.revisions ++ b.revisions }

/-- Some reader keeps this version of the tree. -/
def holdsVersion (h : Holdings K V) (current : Tree K V) : Bool :=
  h.trees.any (·.version == current.version)

/-- Some reader keeps the bucket of a key as it is in this version, on its own or with a version
of the tree.
-/
def holdsBucket [Ord K] (h : Holdings K V) (current : Tree K V) (key : K) : Bool :=
  (current.leaf? key).any (fun leaf => h.revisions.contains leaf.revision)
    || h.trees.any (current.sharesBucket · key)

end Holdings

end PagedIndex
