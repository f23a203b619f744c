import PagedIndex.Proofs.Scan.Standing

/-! The groups of a scan. Although a scan looks its way along a frontier, searches the first bucket
it meets and stops at the far end, its groups are what the leaves of its range are due.
-/

namespace PagedIndex.Scan

open Std

variable [Ord K]

/-- The group of a leaf for a reader who resumes after a position. -/
def groupDue (direction : Direction) (resume : Option (Position K)) (leaf : Leaf K V)
    : Group K V :=
  { key := leaf.key
    pending := (leaf.due direction resume).map (·.entry)
    direction
    revision := leaf.revision }

/-- A leaf that is due anything is not behind the position to resume after. -/
theorem isLE_of_groupDue {direction : Direction} {p : Position K}
    {leaf : Leaf K V} (due : (groupDue direction (some p) leaf).pending ≠ [])
    : (direction.compare p.key leaf.key).isLE = true := by
  cases order : direction.compare p.key leaf.key with
  | lt => rfl
  | eq => rfl
  | gt => simp [groupDue, Leaf.due_of_gt order] at due

/-- The leaves ahead of a scan are sorted in its direction. -/
theorem sorted_ahead {current : Tree K V} {s : Scan K V} (ordered : (s.view.tree current).Ordered)
    : (s.ahead current).Pairwise fun a b => s.descriptor.direction.compare a.key b.key = .lt := by
  unfold ahead
  split
  · exact .nil
  · exact Direction.pairwise_arrange _ (ordered.sorted.filter _)

variable [TransOrd K]

/-- Searching a bucket at or beyond the position to resume after finds the entries that are due. -/
theorem pendingIn_eq (s : Scan K V) {leaf : Leaf K V} (ordered : leaf.bucket.Ordered)
    (ahead : ∀ p, s.resume = some p
      → (s.descriptor.direction.compare p.key leaf.key).isLE = true)
    : s.pendingIn leaf = (leaf.due s.descriptor.direction s.resume).map (·.entry) := by
  unfold pendingIn
  have whole : (leaf.bucket.entries.take leaf.bucket.size).drop 0 = leaf.bucket.entries := by
    rw [List.drop_zero, List.take_of_length_le]
    simp [Bucket.entries, Bucket.size]
  have before (a b : Nat) : (compare a b).isLT = decide (a < b) := by
    rw [Bool.eq_iff_iff]
    simp [Nat.compare_eq_lt]
  cases resume : s.resume with
  | none => simp only [whole, Leaf.map_entry_due_none]
  | some p =>
      have order := Ordering.isLE_iff_eq_lt_or_eq_eq.mp (ahead p resume)
      rcases order with beyond | here
      · have apart : (compare p.key leaf.key).isEq = false := by
          simp [← Direction.compare_eq_iff s.descriptor.direction, beyond]
        simp only [apart, Bool.false_eq_true, if_false, whole, Leaf.due_of_lt beyond,
          Leaf.map_entry_due_none]
      · have near : (compare p.key leaf.key).isEq = true := by
          simpa using (Direction.compare_eq_iff s.descriptor.direction).mp here
        rw [Leaf.map_entry_due_of_eq here]
        simp only [near, if_true, Bucket.entries]
        cases s.descriptor.direction with
        | ascending =>
            simp only [Bucket.beyond, Direction.compare, before,
              ← Bucket.drop_countUpTo ordered.rising, ← List.map_take, ← List.map_drop,
              Bucket.size, List.take_length]
        | descending =>
            simp only [Bucket.beyond, Direction.compare, before,
              ← Bucket.take_countBefore ordered.rising, ← List.map_take, List.drop_zero]

/-! ## Through the leaves ahead -/

/-- Past the first leaf no position is left to resume after, and all of every leaf is due. -/
theorem groupsOf_eq (s : Scan K V) {leaves : List (Leaf K V)}
    (sorted : leaves.Pairwise fun a b => s.descriptor.direction.compare a.key b.key = .lt)
    (ordered : ∀ leaf ∈ leaves, leaf.bucket.Ordered)
    (ahead : ∀ p, s.resume = some p → ∀ leaf ∈ leaves,
      (s.descriptor.direction.compare p.key leaf.key).isLE = true)
    : s.groupsOf leaves
      = ((leaves.filter fun leaf => !s.descriptor.isPastFarEnd leaf.key).map
            (groupDue s.descriptor.direction s.resume)).filter (!·.pending.isEmpty) := by
  induction leaves generalizing s with
  | nil => rfl
  | cons leaf rest ih =>
      obtain ⟨nearest, tail⟩ := List.pairwise_cons.mp sorted
      have pending := s.pendingIn_eq (ordered leaf (by simp)) fun p resume =>
        ahead p resume leaf (by simp)
      -- Beyond this leaf it does not matter any more where the scan resumes.
      have later : (s.passed leaf).groupsOf rest
          = ((rest.filter fun other => !s.descriptor.isPastFarEnd other.key).map
                (groupDue s.descriptor.direction s.resume)).filter
              (!·.pending.isEmpty) := by
        rw [ih (s.passed leaf) tail (fun other member => ordered other (by simp [member]))
          (by simp [passed])]
        simp only [passed]
        congr 1
        refine List.map_congr_left fun other member => ?_
        cases resume : s.resume with
        | none => rfl
        | some p =>
            have beyond := TransCmp.lt_of_isLE_of_lt (ahead p resume leaf (by simp))
              (nearest other (List.mem_filter.mp member).1)
            simp only [groupDue, Leaf.due_of_lt beyond]
      unfold groupsOf
      split
      next past =>
        have noneLeft : (leaf :: rest).filter (fun l => !s.descriptor.isPastFarEnd l.key) = [] := by
          refine List.filter_eq_nil_iff.mpr fun other member => ?_
          rcases List.mem_cons.mp member with rfl | further
          · simp [past]
          · have beyond := Ordering.isLE_iff_eq_lt_or_eq_eq.mpr (Or.inl (nearest other further))
            simp [s.descriptor.isPastFarEnd_of_isLE past beyond]
        rw [noneLeft]
        rfl
      next inside =>
        rw [List.filter_cons_of_pos (by simpa using inside), List.map_cons]
        split
        next nothing =>
          rw [List.filter_cons_of_neg (by simpa [groupDue, ← pending] using nothing), later]
        next something =>
          rw [List.filter_cons_of_pos (by simpa [groupDue, ← pending] using something), later]
          simp only [groupOf, groupDue, pending]

/-! ## From the start -/

/-- A scan starts where its range begins, or in the bucket of the position it resumes after if that
is further along.
-/
theorem reaches_start (view : View K V) (d : Descriptor K) (resume : Option (Position K)) (key : K)
    : d.direction.reaches (start view d resume).frontier key
      = (d.direction.reaches d.nearEnd key
        && resume.all fun p => (d.direction.compare p.key key).isLE) := by
  cases resume with
  | none => simp [start]
  | some p =>
      simp only [start, Direction.reaches_laterStart_eq]
      congr 1
      rw [Bool.eq_iff_iff, Direction.reaches_included_iff, Option.all_some]

/-- Wherever a scan starts, its groups are those of the leaves in range that have entries due. -/
theorem groups_start {current : Tree K V} {view : View K V} {d : Descriptor K}
    (ordered : (view.tree current).Ordered) (possible : d.isEmptyRange = false)
    (resume : Option (Position K))
    : (start view d resume).groups current
      = ((d.direction.arrange ((view.tree current).leaves.filter fun leaf =>
            d.contains leaf.key)).map (groupDue d.direction resume)).filter
          (!·.pending.isEmpty) := by
  have ahead : (start view d resume).ahead current
      = d.direction.arrange ((view.tree current).leaves.filter fun leaf =>
          d.direction.reaches (start view d resume).frontier leaf.key) := by
    simp [Scan.ahead, start, possible, Tree.ahead]
  rw [groups, groupsOf_eq]
  · simp only [ahead, Direction.arrange_filter, List.filter_map, List.filter_filter]
    congr 1
    refine List.filter_congr fun leaf _ => ?_
    rw [reaches_start, d.contains_eq_near_far]
    -- What separates the two filters are leaves behind the position, of which nothing is due.
    cases resume with
    | none => simp [start, Bool.and_comm]
    | some p =>
        by_cases due : (groupDue d.direction (some p) leaf).pending = []
        · simp [start, due]
        · simp [start, isLE_of_groupDue due, Bool.and_comm]
  · exact sorted_ahead ordered
  · intro leaf member
    rw [ahead, Direction.mem_arrange] at member
    exact ordered.buckets leaf (List.mem_filter.mp member).1
  · intro p here leaf member
    rw [ahead, Direction.mem_arrange, List.mem_filter, reaches_start] at member
    cases here
    exact (Bool.and_eq_true_iff.mp member.2).2

/-- A scan goes through what stands in its range beyond the position to resume after, in order. -/
theorem entries_start {current : Tree K V} {view : View K V} {d : Descriptor K}
    (ordered : (view.tree current).Ordered) (possible : d.isEmptyRange = false)
    (resume : Option (Position K))
    : (start view d resume).entries current
      = ((d.direction.arrange ((view.tree current).standings.filter fun x =>
            d.contains x.position.key)).filter fun x =>
              x.position.isBeyond d.direction resume).map (·.entry) := by
  -- Groups that were left out for being empty would add nothing.
  have whole (gs : List (Group K V))
      : (gs.filter (!·.pending.isEmpty)).flatMap (·.pending) = gs.flatMap (·.pending) := by
    have dropped := List.flatten_filter_not_isEmpty (L := gs.map (·.pending))
    rw [List.filter_map] at dropped
    exact dropped
  rw [entries, groups_start ordered possible, whole, List.flatMap_map, Tree.filter_standings,
    Direction.arrange_flatMap, List.filter_flatMap, List.map_flatMap]
  simp only [groupDue, Leaf.due, Direction.arrange_filter]

end PagedIndex.Scan
