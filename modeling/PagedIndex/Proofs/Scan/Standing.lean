import PagedIndex.Proofs.Bucket.Search
import PagedIndex.Proofs.Tree.Order
import PagedIndex.Scan

/-! Entries with the positions they stand at. A reader who resumes after a position is due the
entries beyond it; in one leaf that is what a scan finds by searching the bucket.
-/

namespace PagedIndex

/-- An entry at its position. -/
structure Standing (K : Type u) (V : Type v) where
  position : Position K
  entry : Entry V
deriving DecidableEq, Repr

/-- The entries of a leaf, oldest first. -/
def Leaf.standings (leaf : Leaf K V) : List (Standing K V) :=
  leaf.bucket.slots.map fun slot => ⟨⟨leaf.key, slot.seq⟩, slot.entry⟩

/-- The entries of a tree in ascending order of their positions. -/
def Tree.standings (t : Tree K V) : List (Standing K V) := t.leaves.flatMap Leaf.standings

theorem Leaf.key_of_mem_standings {leaf : Leaf K V} {x : Standing K V} (member : x ∈ leaf.standings)
    : x.position.key = leaf.key := by
  obtain ⟨slot, _, rfl⟩ := List.mem_map.mp member
  rfl

/-- What stands under some keys stands in the leaves of these keys. -/
theorem Tree.filter_standings (t : Tree K V) (inside : K → Bool)
    : t.standings.filter (fun x => inside x.position.key)
      = (t.leaves.filter fun leaf => inside leaf.key).flatMap Leaf.standings := by
  rw [standings, List.filter_flatMap]
  induction t.leaves with
  | nil => rfl
  | cons leaf rest ih =>
      rw [List.flatMap_cons, ih]
      by_cases here : inside leaf.key = true
      · rw [List.filter_cons, if_pos here, List.flatMap_cons, List.filter_eq_self.mpr]
        intro x there
        rw [Leaf.key_of_mem_standings there, here]
      · rw [List.filter_cons, if_neg here, List.filter_eq_nil_iff.mpr, List.nil_append]
        intro x there
        rw [Leaf.key_of_mem_standings there]
        exact here

/-! ## Arranging for a direction -/

namespace Direction

variable (direction : Direction)

theorem arrange_map (f : α → β) (xs : List α)
    : direction.arrange (xs.map f) = (direction.arrange xs).map f := by
  cases direction with
  | ascending => rfl
  | descending => exact List.map_reverse.symm

theorem arrange_filter (p : α → Bool) (xs : List α)
    : direction.arrange (xs.filter p) = (direction.arrange xs).filter p := by
  cases direction with
  | ascending => rfl
  | descending => exact List.filter_reverse.symm

theorem arrange_flatMap (f : α → List β) (xs : List α)
    : direction.arrange (xs.flatMap f)
      = (direction.arrange xs).flatMap fun x => direction.arrange (f x) := by
  cases direction with
  | ascending => rfl
  | descending => exact List.reverse_flatMap

@[simp] theorem mem_arrange {x : α} {xs : List α} : x ∈ direction.arrange xs ↔ x ∈ xs := by
  cases direction with
  | ascending => exact Iff.rfl
  | descending => exact List.mem_reverse

@[simp] theorem arrange_eq_nil_iff {xs : List α} : direction.arrange xs = [] ↔ xs = [] := by
  cases direction with
  | ascending => exact Iff.rfl
  | descending => exact List.reverse_eq_nil_iff

theorem arrange_perm (xs : List α) : (direction.arrange xs).Perm xs := by
  cases direction with
  | ascending => exact .rfl
  | descending => exact List.reverse_perm xs

/-- A list whose items ascend is met in rising order in either direction. -/
theorem pairwise_arrange [Ord K] {xs : List α} {f : α → K}
    (sorted : xs.Pairwise fun a b => Ord.compare (f a) (f b) = .lt)
    : (direction.arrange xs).Pairwise fun a b => direction.compare (f a) (f b) = .lt := by
  cases direction with
  | ascending => exact sorted
  | descending => exact List.pairwise_reverse.mpr sorted

end Direction

/-! ## What lies beyond a position -/

namespace Position

variable [Ord K]

/-- A position is met strictly after the one to resume after, if there is one. -/
def isBeyond (direction : Direction) (resume : Option (Position K)) (q : Position K) : Bool :=
  match resume with
  | none => true
  | some p => (p.compare direction q).isLT

@[simp] theorem isBeyond_none (direction : Direction) (q : Position K)
    : isBeyond direction none q = true := rfl

theorem isBeyond_some_iff {direction : Direction} {p q : Position K}
    : isBeyond direction (some p) q = true ↔ p.compare direction q = .lt := by
  simp [isBeyond]

/-- What lies beyond a position that is due is due. -/
theorem isBeyond_of_lt [Std.TransOrd K] {direction : Direction} {resume : Option (Position K)}
    {a b : Position K} (beyond : isBeyond direction resume a = true)
    (further : a.compare direction b = .lt)
    : isBeyond direction resume b = true := by
  cases resume with
  | none => rfl
  | some p =>
      rw [isBeyond_some_iff] at beyond ⊢
      exact Std.TransCmp.lt_trans beyond further

/-- Resuming after a position does not depend on how its key is spelled. -/
theorem isBeyond_congr_left [Std.TransOrd K] {direction : Direction} {a b : Position K}
    (same : a.compare direction b = .eq) (q : Position K)
    : isBeyond direction (some a) q = isBeyond direction (some b) q := by
  rw [isBeyond, isBeyond, Std.TransCmp.congr_left same]

theorem isBeyond_congr [Std.TransOrd K] {direction : Direction} {resume : Option (Position K)}
    {a b : Position K} (same : a.compare direction b = .eq)
    : isBeyond direction resume a = isBeyond direction resume b := by
  cases resume with
  | none => rfl
  | some p => rw [isBeyond, isBeyond, Std.TransCmp.congr_right same]

end Position

/-- The entries of a leaf that a reader is due, in scan order. -/
def Leaf.due [Ord K] (direction : Direction) (resume : Option (Position K)) (leaf : Leaf K V)
    : List (Standing K V) :=
  direction.arrange (leaf.standings.filter fun x => x.position.isBeyond direction resume)

variable [Ord K] {direction : Direction}

/-- Beyond the key of the position to resume after, a whole leaf is due. -/
theorem Leaf.due_of_lt {p : Position K} {leaf : Leaf K V}
    (beyond : direction.compare p.key leaf.key = .lt)
    : leaf.due direction (some p) = leaf.due direction none := by
  unfold Leaf.due Leaf.standings
  simp [List.filter_map, Function.comp_def, Position.isBeyond, Position.compare, beyond]

/-- Before the key of the position to resume after, nothing of a leaf is due. -/
theorem Leaf.due_of_gt {p : Position K} {leaf : Leaf K V}
    (behind : direction.compare p.key leaf.key = .gt)
    : leaf.due direction (some p) = [] := by
  unfold Leaf.due Leaf.standings
  simp [List.filter_map, Function.comp_def, Position.isBeyond, Position.compare, behind]

/-- Under the key of the position to resume after, numbers decide what of a leaf is due. -/
theorem Leaf.map_entry_due_of_eq {p : Position K} {leaf : Leaf K V}
    (here : direction.compare p.key leaf.key = .eq)
    : (leaf.due direction (some p)).map (·.entry)
      = direction.arrange ((leaf.bucket.slots.filter fun slot =>
          (direction.compare p.seq slot.seq).isLT).map (·.entry)) := by
  unfold Leaf.due Leaf.standings
  rw [← Direction.arrange_map, List.filter_map, List.map_map]
  simp [Function.comp_def, Position.isBeyond, Position.compare, here]

theorem Leaf.map_entry_due_none (leaf : Leaf K V)
    : (leaf.due direction none).map (·.entry) = direction.arrange leaf.bucket.entries := by
  unfold Leaf.due Leaf.standings Bucket.entries
  rw [← Direction.arrange_map, List.filter_eq_self.mpr (by simp), List.map_map]
  rfl

/-! ## Standings of an ordered tree -/

namespace Tree.Ordered

open Std

variable {t : Tree K V}

variable [TransOrd K]

/-- Keys ascend from leaf to leaf and numbers rise in each, so the positions of a tree ascend. -/
theorem sorted_standings (h : t.Ordered)
    : t.standings.Pairwise fun a b => a.position.compare .ascending b.position = .lt := by
  refine List.pairwise_flatMap.mpr ⟨?_, ?_⟩
  · intro leaf member
    refine List.pairwise_map.mpr ((h.buckets leaf member).rising.imp fun lt => ?_)
    simp [Position.compare, Direction.compare, ReflCmp.compare_self, Nat.compare_eq_lt.mpr lt]
  · refine h.sorted.imp fun {a b} order x left y right => ?_
    simp [Position.compare, Direction.compare, Leaf.key_of_mem_standings left,
      Leaf.key_of_mem_standings right, order]

/-- Under the key of a leaf stands what is in its bucket. -/
theorem filter_standings_key (h : t.Ordered) {leaf : Leaf K V} (member : leaf ∈ t.leaves)
    : t.standings.filter (fun x => (compare leaf.key x.position.key).isEq) = leaf.standings := by
  obtain ⟨before, after, split⟩ := List.append_of_mem member
  have sorted := h.sorted
  rw [split, List.pairwise_append, List.pairwise_cons] at sorted
  obtain ⟨_, ⟨above, _⟩, below⟩ := sorted
  have alone : t.leaves.filter (fun other => (compare leaf.key other.key).isEq) = [leaf] := by
    rw [split, List.filter_append, List.filter_cons_of_pos (by simp [ReflCmp.compare_self]),
      List.filter_eq_nil_iff.mpr, List.filter_eq_nil_iff.mpr, List.nil_append]
    · intro other later
      simp [above other later]
    · intro other earlier
      simp [OrientedCmp.gt_of_lt (below other earlier leaf (by simp))]
  rw [t.filter_standings fun key => (compare leaf.key key).isEq, alone, List.flatMap_singleton]

end Tree.Ordered

/-- The copy of a range has what stands in the range. -/
theorem Tree.standings_restrictedTo [Std.TransOrd K] (t : Tree K V) {d : Descriptor K}
    (possible : d.isEmptyRange = false)
    : (t.restrictedTo d).standings.filter (fun x => d.contains x.position.key)
      = t.standings.filter fun x => d.contains x.position.key := by
  rw [filter_standings, filter_standings, t.leaves_restrictedTo possible, List.filter_map,
    List.flatMap_map]
  simp only [Function.comp_def, List.filter_filter, Bool.and_self]
  rfl

end PagedIndex
