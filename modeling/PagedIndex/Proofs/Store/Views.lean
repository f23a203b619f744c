import PagedIndex.Proofs.Store.Scans

/-! Views agree. A scan goes through the same groups whether it follows the index, keeps the version
it was opened on or reads a copy of its range; all that differs is which buckets of the index it
shares.
-/

namespace PagedIndex

open Std

/-- A group as it would be read from a private copy. -/
def Group.unshared (g : Group K V) : Group K V := { g with revision := 0 }

variable [Ord K]

/-- But for their revisions, the groups of a scan are those of the leaves in its range. -/
theorem Scan.unshared_groups_start [TransOrd K] {current : Tree K V} {view : View K V}
    {d : Descriptor K} (ordered : (view.tree current).Ordered) (possible : d.isEmptyRange = false)
    (resume : Option (Position K))
    : ((start view d resume).groups current).map Group.unshared
      = ((d.direction.arrange ((view.tree current).leaves.filter fun leaf =>
            d.contains leaf.key)).map fun leaf =>
              (groupDue d.direction resume leaf).unshared).filter (!·.pending.isEmpty) := by
  have still (groups : List (Group K V))
      : (groups.filter (!·.pending.isEmpty)).map Group.unshared
        = (groups.map Group.unshared).filter (!·.pending.isEmpty) := by
    rw [List.filter_map]
    rfl
  rw [groups_start ordered possible, still, List.map_map]
  rfl

namespace Store

variable {s : Store K V} {d : Descriptor K} {scan : Scan K V}

/-- A scan that was opened has nothing to read or starts from the view of its store. -/
theorem scan_cases (opened : (s.scan d).1 = .ok scan)
    : d.validate = .ok ()
      ∧ ((d.isEmptyRange = true ∧ scan = .nothing d.direction)
        ∨ (d.isEmptyRange = false
          ∧ ∃ resume, s.Resumes d resume ∧ scan = .start (s.viewFor d) d resume)) := by
  obtain ⟨valid, resuming⟩ := resumes_of_scan opened
  refine ⟨valid, ?_⟩
  by_cases nothing : d.isEmptyRange = true
  · rw [scan_eq_nothing valid nothing] at opened
    exact Or.inl ⟨nothing, (Except.ok.inj opened).symm⟩
  · have possible := Bool.eq_false_iff.mpr nothing
    obtain ⟨resume, resumes⟩ := resuming possible
    rw [scan_eq valid possible resumes] at opened
    exact Or.inr ⟨possible, resume, resumes, (Except.ok.inj opened).symm⟩

/-- In snapshot modes no scan follows the index. -/
theorem view_ne_live (snapshot : s.visibility.isSnapshot = true) (opened : (s.scan d).1 = .ok scan)
    : scan.view ≠ .live := by
  rcases (scan_cases opened).2 with ⟨_, rfl⟩ | ⟨_, resume, _, rfl⟩
  · simp [Scan.nothing]
  · cases mode : s.visibility with
    | inPlace => simp [mode, Visibility.isSnapshot] at snapshot
    | copyOnWrite => simp [Scan.start, viewFor, mode]
    | copyOnRead => simp [Scan.start, viewFor, mode]

variable [TransOrd K]

/-- What is read by a scan that was opened is in order. -/
theorem ordered_of_scan (h : s.contents.Coherent) (opened : (s.scan d).1 = .ok scan)
    : (scan.view.tree s.contents.tree).Ordered := by
  rcases (scan_cases opened).2 with ⟨_, rfl⟩ | ⟨_, resume, _, rfl⟩
  · exact Tree.ordered_nil 0
  · exact ordered_viewFor h d

/-- The leaves in a range are the same in every view but for their revisions. -/
theorem unshared_groups_viewFor (h : s.contents.Coherent) (possible : d.isEmptyRange = false)
    (resume : Option (Position K))
    : ((Scan.start (s.viewFor d) d resume).groups s.contents.tree).map Group.unshared
      = ((Scan.start .live d resume).groups s.contents.tree).map Group.unshared := by
  have live : ((View.live : View K V).tree s.contents.tree).Ordered := h.tree
  rw [Scan.unshared_groups_start (ordered_viewFor h d) possible,
    Scan.unshared_groups_start live possible]
  congr 1
  unfold viewFor
  cases s.visibility with
  | inPlace => rfl
  | copyOnWrite => rfl
  | copyOnRead =>
      -- The copy has the leaves of the range, and filtering by the range again keeps them all.
      simp only [View.tree]
      rw [s.contents.tree.leaves_restrictedTo possible, List.filter_map, Direction.arrange_map,
        List.map_map]
      simp only [Function.comp_def, List.filter_filter, Bool.and_self]
      rfl

/-- If a scan can be opened, it can be opened in every mode, with the same groups to go through. -/
theorem scan_visibility (h : s.contents.Coherent) (opened : (s.scan d).1 = .ok scan)
    (visibility : Visibility)
    : ∃ other, ({ s with visibility }.scan d).1 = .ok other
        ∧ (other.groups s.contents.tree).map Group.unshared
          = (scan.groups s.contents.tree).map Group.unshared := by
  obtain ⟨valid, ⟨nothing, rfl⟩ | ⟨possible, resume, resumes, rfl⟩⟩ := scan_cases opened
  · exact ⟨_, scan_eq_nothing valid nothing, rfl⟩
  · have again : Resumes { s with visibility } d resume := resumes
    refine ⟨_, scan_eq valid possible again, ?_⟩
    rw [unshared_groups_viewFor h possible]
    exact unshared_groups_viewFor (s := { s with visibility }) h possible resume

end Store

end PagedIndex
