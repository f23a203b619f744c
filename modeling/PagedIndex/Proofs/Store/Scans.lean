import PagedIndex.Proofs.Contents.Standings
import PagedIndex.Proofs.Scan.Draining
import PagedIndex.Proofs.Store.Reachable

/-! What scans of a store deliver. Whatever view its visibility prescribes, a scan that is opened
finds what the contents have in the range, and drained without writes it delivers that.
-/

namespace PagedIndex.Store

open Std

variable [Ord K] {s : Store K V} {d : Descriptor K}

/-- The view that the visibility of a store prescribes for a scan. -/
def viewFor (s : Store K V) (d : Descriptor K) : View K V :=
  match s.visibility with
  | .inPlace => .live
  | .copyOnWrite => .pinned s.contents.tree
  | .copyOnRead => .copied (s.contents.tree.restrictedTo d)

/-- The position that a descriptor makes a scan resume after: none without a cursor, else the one
that the cursor stands for.
-/
def Resumes (s : Store K V) (d : Descriptor K) (resume : Option (Position K)) : Prop :=
  match d.cursor with
  | none => resume = none
  | some cursor =>
      ∃ r, s.contents.locator.resolve cursor = some r ∧ resume = some r.position

/-- A scan can be opened, and however often it is pulled while nothing is written, it delivers some
entries in groups and then nothing more.
-/
def Delivers (s : Store K V) (d : Descriptor K) (entries : List (Entry V)) : Prop :=
  ∃ scan groups, (s.scan d).1 = .ok scan ∧ scan.Drains (s.scan d).2.contents.tree groups
    ∧ groups.flatMap (·.pending) = entries

/-! ## Opening a scan -/

theorem openScan_eq (s : Store K V) (d : Descriptor K) (resume : Option (Position K))
    : (s.openScan d resume).1 = .start (s.viewFor d) d resume := by
  unfold openScan viewFor
  simp only [count]
  cases s.visibility <;> rfl

/-- Resolving a cursor changes neither what a store holds nor how it is read. -/
theorem viewFor_resolve (s : Store K V) (cursor : Cursor) (d : Descriptor K)
    : (s.resolve cursor).2.viewFor d = s.viewFor d := by
  unfold resolve
  cases s.contents.locator.resolve cursor with
  | none => rfl
  | some r => cases r <;> rfl

/-- A valid scan of a range that can hold keys starts from its view, or fails for its cursor. -/
theorem scan_eq (valid : d.validate = .ok ()) (possible : d.isEmptyRange = false)
    {resume : Option (Position K)} (resumes : s.Resumes d resume)
    : (s.scan d).1 = .ok (.start (s.viewFor d) d resume) := by
  have course := s.scanCourse d
  generalize (s.scan d).1 = answer, (s.scan d).2 = t at course ⊢
  unfold Resumes at resumes
  cases course with
  | refused invalid => simp [valid] at invalid
  | empty _ nothing => simp [possible] at nothing
  | fresh _ _ start =>
      rw [start] at resumes
      rw [openScan_eq, resumes]
  | @resumed cursor r _ _ carried resolved =>
      rw [carried] at resumes
      obtain ⟨other, found, rfl⟩ := resumes
      obtain rfl := Option.some.inj (resolved.symm.trans found)
      rw [openScan_eq, viewFor_resolve]
  | unknown _ _ carried unresolved =>
      rw [carried] at resumes
      simp [unresolved] at resumes

theorem scan_eq_nothing (valid : d.validate = .ok ()) (nothing : d.isEmptyRange = true)
    : (s.scan d).1 = .ok (.nothing d.direction) := by
  simp [scan, valid, nothing]

theorem scan_eq_error {fault : Fault} (invalid : d.validate = .error fault)
    : (s.scan d).1 = .error fault := by
  simp [scan, invalid]

theorem scan_eq_unknown (valid : d.validate = .ok ()) (possible : d.isEmptyRange = false)
    {cursor : Cursor} (carried : d.cursor = some cursor)
    (unresolved : s.contents.locator.resolve cursor = none)
    : (s.scan d).1 = .error (.unknownCursor cursor.record.toHex) := by
  simp [scan, valid, possible, carried, resolve, unresolved]

/-- A scan that was opened was valid, and its cursor, if it was looked at, stood for a position. -/
theorem resumes_of_scan {scan : Scan K V} (opened : (s.scan d).1 = .ok scan)
    : d.validate = .ok () ∧ (d.isEmptyRange = false → ∃ resume, s.Resumes d resume) := by
  have course := s.scanCourse d
  rw [opened] at course
  generalize (s.scan d).2 = after at course
  unfold Resumes
  cases course with
  | empty valid nothing => exact ⟨valid, fun possible => by simp [nothing] at possible⟩
  | fresh valid _ start => exact ⟨valid, fun _ => ⟨none, by rw [start]⟩⟩
  | @resumed cursor r valid _ carried resolved =>
      exact ⟨valid, fun _ => ⟨some r.position, by rw [carried]; exact ⟨r, resolved, rfl⟩⟩⟩

variable [TransOrd K]

/-- What is read through a view is in order. -/
theorem ordered_viewFor (h : s.contents.Coherent) (d : Descriptor K)
    : ((s.viewFor d).tree s.contents.tree).Ordered := by
  unfold viewFor
  cases s.visibility with
  | inPlace => exact h.tree
  | copyOnWrite => exact h.tree
  | copyOnRead => exact h.tree.restrictedTo d

/-- Through every view a range has what the current version of the index has there. -/
theorem standings_viewFor (s : Store K V) (possible : d.isEmptyRange = false)
    : ((s.viewFor d).tree s.contents.tree).standings.filter (fun x => d.contains x.position.key)
      = s.contents.tree.standings.filter fun x => d.contains x.position.key := by
  unfold viewFor
  cases s.visibility with
  | inPlace => rfl
  | copyOnWrite => rfl
  | copyOnRead => exact Tree.standings_restrictedTo _ possible

theorem selection_of_isEmptyRange (s : Store K V) (nothing : d.isEmptyRange = true)
    : s.contents.selection d = [] := by
  simp [Contents.selection, d.contains_eq_false_of_isEmptyRange nothing]

/-- A scan that starts from the view of its store has left what is selected beyond the position it
resumes after.
-/
theorem entries_viewFor (h : s.contents.Coherent) (possible : d.isEmptyRange = false)
    (resume : Option (Position K))
    : (Scan.start (s.viewFor d) d resume).entries s.contents.tree
      = (s.contents.remaining d resume).map (·.entry) := by
  rw [Scan.entries_start (ordered_viewFor h d) possible, s.standings_viewFor possible]
  exact h.map_entry_selection d (Position.isBeyond d.direction resume) fun a b same =>
    Position.isBeyond_congr (Position.compare_eq_of_eq _ same)

/-- A valid scan whose cursor stands for a position, if it has one, is opened and has left what is
selected beyond that position.
-/
theorem scan_entries (h : s.contents.Coherent) (valid : d.validate = .ok ())
    {resume : Option (Position K)} (resumes : s.Resumes d resume)
    : ∃ scan, (s.scan d).1 = .ok scan
        ∧ (scan.view.tree s.contents.tree).Ordered
        ∧ scan.entries s.contents.tree
          = (s.contents.remaining d resume).map (·.entry) := by
  by_cases nothing : d.isEmptyRange = true
  · refine ⟨_, scan_eq_nothing valid nothing, Tree.ordered_nil 0, ?_⟩
    rw [Contents.remaining, s.selection_of_isEmptyRange nothing]
    rfl
  · have possible := Bool.eq_false_iff.mpr nothing
    exact ⟨_, scan_eq valid possible resumes, ordered_viewFor h d,
      entries_viewFor h possible resume⟩

theorem delivers (h : s.contents.Coherent) (valid : d.validate = .ok ())
    {resume : Option (Position K)} (resumes : s.Resumes d resume)
    : s.Delivers d ((s.contents.remaining d resume).map (·.entry)) := by
  obtain ⟨scan, opened, ordered, left⟩ := scan_entries h valid resumes
  refine ⟨scan, scan.groups s.contents.tree, opened, ?_, left⟩
  rw [contents_scan]
  exact Scan.drains_groups ordered

/-- Whenever a scan that is read at once succeeds, its entries are those selected beyond the
position it resumes after.
-/
theorem scanEntries_ok (h : s.contents.Coherent) {entries : List (Entry V)}
    (answered : (s.scanEntries d).1 = .ok entries)
    : ∃ resume, (d.isEmptyRange = false → s.Resumes d resume)
        ∧ entries = (s.contents.remaining d resume).map (·.entry) := by
  have split : (s.scanEntries d).1 = (s.scan d).1.map (·.entries s.contents.tree) := by
    rw [← s.contents_scan d]
    rfl
  cases opened : (s.scan d).1 with
  | error fault => simp [split, opened, Except.map] at answered
  | ok scan =>
      rw [split, opened] at answered
      obtain rfl := Except.ok.inj answered
      obtain ⟨valid, resuming⟩ := resumes_of_scan opened
      -- In an empty range the cursor is not looked at, but nothing is selected there either.
      by_cases nothing : d.isEmptyRange = true
      · refine ⟨none, by simp [nothing], ?_⟩
        rw [scan_eq_nothing valid nothing] at opened
        obtain rfl := Except.ok.inj opened
        rw [Contents.remaining, s.selection_of_isEmptyRange nothing]
        rfl
      · obtain ⟨resume, resumes⟩ := resuming (Bool.eq_false_iff.mpr nothing)
        obtain ⟨other, again, _, left⟩ := scan_entries h valid resumes
        obtain rfl := Except.ok.inj (opened.symm.trans again)
        exact ⟨resume, fun _ => resumes, left⟩

end PagedIndex.Store
