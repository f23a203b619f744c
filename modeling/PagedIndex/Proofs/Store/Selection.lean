import PagedIndex.Proofs.Store.Scans

/-! Scans without a cursor. Drained without writes, such a scan delivers what is selected by its
range, one group for each key.
-/

namespace PagedIndex

open Std

/-- Groups that divide a list of standings by their keys, in a direction. -/
structure DividedByKey [Ord K] (direction : Direction) (rows : List (Standing K V))
    (groups : List (Group K V)) : Prop where
  whole : groups.flatMap (·.pending) = rows.map (·.entry)
  /-- No two groups have the same key, and the keys advance. -/
  advancing : groups.Pairwise fun a b => direction.compare a.key b.key = .lt
  filled : ∀ group ∈ groups, group.pending ≠ []
  /-- A group has everything under its key. -/
  pending
    : ∀ group ∈ groups,
        group.pending
          = (rows.filter fun x => (compare group.key x.position.key).isEq).map (·.entry)
  covered : ∀ x ∈ rows, ∃ group ∈ groups, compare group.key x.position.key = .eq

namespace Store

variable [Ord K] [TransOrd K] {s : Store K V} {d : Descriptor K}

/-- The group of a leaf in range has what remains under the key of the leaf. -/
theorem groupDue_pending (h : s.contents.Coherent) (possible : d.isEmptyRange = false)
    (resume : Option (Position K)) {leaf : Leaf K V}
    (member : leaf ∈ ((s.viewFor d).tree s.contents.tree).leaves)
    (inside : d.contains leaf.key = true)
    : (Scan.groupDue d.direction resume leaf).pending
      = ((s.contents.remaining d resume).filter fun x =>
          (compare leaf.key x.position.key).isEq).map (·.entry) := by
  have underKey := h.map_entry_selection d
    (fun p => p.isBeyond d.direction resume && (compare leaf.key p.key).isEq)
    fun a b same => by
      rw [TransCmp.congr_right ((Position.compare_eq_iff _).mp same).1,
        Position.isBeyond_congr (Position.compare_eq_of_eq _ same)]
  have whole : leaf.standings.filter (fun x => d.contains x.position.key) = leaf.standings := by
    refine List.filter_eq_self.mpr fun x there => ?_
    rw [Leaf.key_of_mem_standings there, inside]
  rw [Contents.remaining, List.filter_comm, List.filter_filter, ← underKey,
    ← s.standings_viewFor possible, ← Direction.arrange_filter, ← List.filter_filter,
    List.filter_comm (fun x : Standing K V => (compare leaf.key x.position.key).isEq)
      (fun x => d.contains x.position.key),
    (ordered_viewFor h d).filter_standings_key member, whole]
  rfl

/-- The groups of a scan that has just been opened divide what remains of its range. -/
theorem dividedByKey_remaining (h : s.contents.Coherent) (possible : d.isEmptyRange = false)
    (resume : Option (Position K))
    : DividedByKey d.direction (s.contents.remaining d resume)
        ((Scan.start (s.viewFor d) d resume).groups s.contents.tree) := by
  have ordered := ordered_viewFor h d
  have groups := Scan.groups_start ordered possible resume
  have whole := entries_viewFor h possible resume
  have pending : ∀ group ∈ (Scan.start (s.viewFor d) d resume).groups s.contents.tree,
      group.pending
        = ((s.contents.remaining d resume).filter fun x =>
            (compare group.key x.position.key).isEq).map (·.entry) := by
    intro group member
    rw [groups, List.mem_filter, List.mem_map] at member
    obtain ⟨⟨leaf, there, rfl⟩, _⟩ := member
    rw [Direction.mem_arrange, List.mem_filter] at there
    exact groupDue_pending h possible resume there.1 there.2
  refine { whole := whole, advancing := ?_, filled := ?_, pending := pending, covered := ?_ }
  · rw [groups]
    refine List.Pairwise.filter _ (List.pairwise_map.mpr ?_)
    exact Direction.pairwise_arrange _ (ordered.sorted.filter _)
  · intro group member
    rw [groups] at member
    simpa using (List.mem_filter.mp member).2
  · intro x member
    have delivered : x.entry ∈ (s.contents.remaining d resume).map (·.entry) :=
      List.mem_map_of_mem member
    rw [← whole] at delivered
    obtain ⟨group, found, inGroup⟩ := List.mem_flatMap.mp delivered
    rw [pending group found] at inGroup
    obtain ⟨y, underKey, same⟩ := List.mem_map.mp inGroup
    -- The standing that put the entry into the group is this one, as a record stands once.
    obtain ⟨remains, here⟩ := List.mem_filter.mp underKey
    have stands := (h.mem_remaining_iff.mp member).1
    rw [← same, (h.mem_remaining_iff.mp remains).1] at stands
    obtain rfl := Option.some.inj stands
    exact ⟨group, found, by simpa using here⟩

/-- Without a cursor the groups divide what the range selects. -/
theorem dividedByKey_start (h : s.contents.Coherent) (possible : d.isEmptyRange = false)
    : DividedByKey d.direction (s.contents.selection d)
        ((Scan.start (s.viewFor d) d none).groups s.contents.tree) :=
  s.contents.remaining_none d ▸ dividedByKey_remaining h possible none

/-- A scan without a cursor is opened in every reachable store. Drained without writes it yields one
group for each key of its range that has entries and then nothing, and the groups together are what
is live in the range, each record once, sorted by key and number in the direction of the scan.
-/
theorem drained_selection (h : s.Reachable) (cursorless : d.cursor = none)
    : ∃ scan groups, (s.scan d).1 = .ok scan
        ∧ scan.Drains (s.scan d).2.contents.tree groups
        ∧ DividedByKey d.direction (s.contents.selection d) groups
        ∧ (s.contents.selection d).Pairwise
            (fun a b => a.position.compare d.direction b.position = .lt)
        ∧ ∀ x, x ∈ s.contents.selection d
            ↔ s.contents.standing? x.entry.record = some x ∧ d.contains x.position.key = true := by
  have coherent := h.coherent
  have valid : d.validate = .ok () := by simp [Descriptor.validate, cursorless]
  have resumes : s.Resumes d none := by simp [Resumes, cursorless]
  rw [contents_scan]
  by_cases nothing : d.isEmptyRange = true
  · have unselected := s.selection_of_isEmptyRange nothing
    refine ⟨_, [], scan_eq_nothing valid nothing, ?_, ?_, coherent.sorted_selection, ?_⟩
    · exact Scan.drains_groups (s := .nothing d.direction) (Tree.ordered_nil 0)
    · rw [unselected]
      exact ⟨rfl, .nil, by simp, by simp, by simp⟩
    · exact fun x => coherent.mem_selection_iff
  · have possible := Bool.eq_false_iff.mpr nothing
    refine ⟨_, _, scan_eq valid possible resumes, Scan.drains_groups (ordered_viewFor coherent d),
      dividedByKey_start coherent possible, coherent.sorted_selection, ?_⟩
    exact fun x => coherent.mem_selection_iff

theorem afterMoves_drained
    : ∃ scan groups, (afterMoves.scan (.all .descending)).1 = .ok scan
      ∧ scan.Drains (afterMoves.scan (.all .descending)).2.contents.tree groups
      ∧ groups.flatMap (·.pending) = [⟨⟨[2]⟩, "d"⟩, ⟨⟨[1]⟩, "c"⟩] := by
  obtain ⟨scan, groups, opened, drained, divided, _⟩ :=
    drained_selection (d := .all .descending) afterMoves_reachable rfl
  refine ⟨scan, groups, opened, drained, ?_⟩
  rw [divided.whole, Contents.selection, afterMoves_reachable.coherent.standings_eq]
  decide

end Store

end PagedIndex
