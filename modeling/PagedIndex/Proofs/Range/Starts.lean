import PagedIndex.Proofs.Scan.Standing

/-! Where travel starts. The stricter of two starting endpoints has exactly those keys at or beyond
it that both have, whichever of them comes first, so the leaf that is met first from there is the
first of the tree that lies beyond both.
-/

namespace PagedIndex

open Std

variable [Ord K]

/-- A key lies beyond a starting endpoint in the direction of travel, or at one that belongs to the
range. Without an endpoint travel starts before every key.
-/
def Direction.AtOrBeyond (direction : Direction) (start : Option (Endpoint K)) (key : K) : Prop :=
  ∀ e ∈ start, direction.compare e.key key = .lt
    ∨ (direction.compare e.key key = .eq ∧ e.inclusive = true)

namespace Tree

/-- A leaf is the first in the direction of travel whose key has a property. -/
structure FirstWith (t : Tree K V) (direction : Direction) (p : K → Prop) (leaf : Leaf K V)
    : Prop where
  member : leaf ∈ t.leaves
  holds : p leaf.key
  first
    : ∀ other ∈ t.leaves, p other.key
        → other = leaf ∨ direction.compare leaf.key other.key = .lt

variable [TransOrd K] {t : Tree K V} {direction : Direction} {start : Option (Endpoint K)}

theorem mem_ahead_iff {leaf : Leaf K V}
    : leaf ∈ t.ahead direction start
      ↔ leaf ∈ t.leaves ∧ direction.AtOrBeyond start leaf.key := by
  rw [ahead, Direction.mem_arrange, List.mem_filter, Direction.reaches_iff]
  exact Iff.rfl

/-- The leaf that is met first is the first one at or beyond the start. -/
theorem nextLeaf?_eq_some_iff (sorted : t.leaves.Pairwise fun a b => compare a.key b.key = .lt)
    {leaf : Leaf K V}
    : t.nextLeaf? direction start = some leaf
      ↔ t.FirstWith direction (direction.AtOrBeyond start) leaf := by
  have rising : (t.ahead direction start).Pairwise fun a b =>
      direction.compare a.key b.key = .lt :=
    Direction.pairwise_arrange direction (sorted.filter _)
  rw [nextLeaf?, List.head?_eq_some_iff]
  constructor
  · rintro ⟨rest, met⟩
    obtain ⟨member, reached⟩ := mem_ahead_iff.mp (met ▸ List.mem_cons_self)
    refine ⟨member, reached, fun other there beyond => ?_⟩
    have ahead := mem_ahead_iff.mpr ⟨there, beyond⟩
    rw [met] at rising ahead
    exact (List.mem_cons.mp ahead).imp_right ((List.pairwise_cons.mp rising).1 other)
  · intro h
    have ahead := mem_ahead_iff.mpr ⟨h.member, h.holds⟩
    cases met : t.ahead direction start with
    | nil => simp [met] at ahead
    | cons head rest =>
        obtain ⟨member, reached⟩ := mem_ahead_iff.mp (met ▸ List.mem_cons_self (a := head))
        refine ⟨rest, ?_⟩
        rw [met] at rising ahead
        rcases List.mem_cons.mp ahead with rfl | later
        · rfl
        · -- Otherwise each of the two would come before the other.
          have before := (List.pairwise_cons.mp rising).1 leaf later
          rcases h.first head member reached with rfl | after
          · rfl
          · rw [OrientedCmp.gt_of_lt before] at after
            contradiction

theorem nextLeaf?_eq_none_iff
    : t.nextLeaf? direction start = none
      ↔ ∀ leaf ∈ t.leaves, ¬direction.AtOrBeyond start leaf.key := by
  rw [nextLeaf?, List.head?_eq_none_iff, List.eq_nil_iff_forall_not_mem]
  simp only [mem_ahead_iff, not_and]

end Tree

variable [TransOrd K]

theorem Direction.atOrBeyond_laterStart_iff (direction : Direction) (a b : Option (Endpoint K))
    (key : K)
    : direction.AtOrBeyond (direction.laterStart a b) key
      ↔ direction.AtOrBeyond a key ∧ direction.AtOrBeyond b key := by
  have reached := direction.reaches_laterStart_eq a b key
  rw [Bool.eq_iff_iff, Bool.and_eq_true, reaches_iff, reaches_iff, reaches_iff] at reached
  exact reached

/-- For all starting endpoints, in either direction, a key lies at or beyond the stricter of two if
and only if it lies at or beyond both, so it does not matter which of the two comes first. Of every
tree the leaf met first from the stricter one is the first leaf that lies beyond both endpoints,
and none is met if there is none.
-/
theorem stricter_start (direction : Direction) (a b : Option (Endpoint K))
    : (∀ key, direction.AtOrBeyond (direction.laterStart a b) key
        ↔ direction.AtOrBeyond a key ∧ direction.AtOrBeyond b key)
      ∧ (∀ key, direction.AtOrBeyond (direction.laterStart b a) key
        ↔ direction.AtOrBeyond (direction.laterStart a b) key)
      ∧ ∀ (V : Type v) (t : Tree K V), (t.leaves.Pairwise fun x y => compare x.key y.key = .lt)
        → (∀ leaf, t.nextLeaf? direction (direction.laterStart a b) = some leaf
            ↔ t.FirstWith direction
                (fun key => direction.AtOrBeyond a key ∧ direction.AtOrBeyond b key) leaf)
          ∧ (t.nextLeaf? direction (direction.laterStart a b) = none
            ↔ ∀ leaf ∈ t.leaves,
                ¬(direction.AtOrBeyond a leaf.key ∧ direction.AtOrBeyond b leaf.key))
          ∧ t.nextLeaf? direction (direction.laterStart b a)
            = t.nextLeaf? direction (direction.laterStart a b) := by
  have both : direction.AtOrBeyond (direction.laterStart a b)
      = fun key => direction.AtOrBeyond a key ∧ direction.AtOrBeyond b key :=
    funext fun key => propext (direction.atOrBeyond_laterStart_iff a b key)
  have swapped : direction.AtOrBeyond (direction.laterStart b a)
      = direction.AtOrBeyond (direction.laterStart a b) := by
    rw [both]
    exact funext fun key => propext ((direction.atOrBeyond_laterStart_iff b a key).trans and_comm)
  refine ⟨direction.atOrBeyond_laterStart_iff a b, fun key => by rw [swapped], ?_⟩
  intro V t sorted
  refine ⟨fun leaf => ?_, ?_, ?_⟩
  · rw [Tree.nextLeaf?_eq_some_iff sorted, both]
  · rw [Tree.nextLeaf?_eq_none_iff, both]
  · refine Option.ext fun leaf => ?_
    rw [Tree.nextLeaf?_eq_some_iff sorted, Tree.nextLeaf?_eq_some_iff sorted, swapped]

/-- One entry each under one, five and nine. -/
def Tree.oneFiveNine : Tree Int String :=
  ((Tree.empty.insert 5 1 ⟨⟨[1]⟩, "a"⟩).insert 9 2 ⟨⟨[2]⟩, "b"⟩).insert 1 3 ⟨⟨[3]⟩, "c"⟩

/-- Downwards from five, and from short of five, the first leaf is that of one. -/
theorem one_is_first_short_of_five
    : TransOrd Int
      ∧ (Tree.oneFiveNine.leaves.Pairwise fun x y => compare x.key y.key = .lt)
      ∧ ∃ leaf : Leaf Int String, leaf.key = 1
        ∧ Tree.oneFiveNine.FirstWith .descending
            (fun key => Direction.descending.AtOrBeyond (some (.included 5)) key
              ∧ Direction.descending.AtOrBeyond (some (.excluded 5)) key) leaf := by
  have sorted : Tree.oneFiveNine.leaves.Pairwise fun x y => compare x.key y.key = .lt := by decide
  obtain ⟨_, _, met⟩ := stricter_start.{0, 0} (K := Int) .descending (some (.included 5))
    (some (.excluded 5))
  obtain ⟨first, _, _⟩ := met String Tree.oneFiveNine sorted
  exact ⟨inferInstance, sorted, _, rfl, (first _).mp rfl⟩

end PagedIndex
