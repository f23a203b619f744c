import PagedIndex.Proofs.Scan.Frozen
import PagedIndex.Proofs.Session.Runs
import PagedIndex.Proofs.Store.Views

/-! Snapshots are isolated. A reader of a view that does not follow the index goes on through what
it had left when it was opened, whatever is written and read in between.
-/

namespace PagedIndex.Session

open Std

variable [Ord K] {s : Session K V} {name : String} {scan : Scan K V}
  {actions : List (Action K V)}

/-- Whatever is done besides, the scan under a name yields some groups one by one and nothing after
them. The next group can be set aside at any time and serves its entries; flattened at any time, the
scan serves the entries of the groups it has not yielded yet.
-/
structure Yields (s : Session K V) (name : String) (groups : List (Group K V)) : Prop where
  pulls : ∀ actions : List (Action K V), (∀ a ∈ actions, a.Spares name)
    → (s.pulls name actions).map (·.2)
      = (groups.map some).take (s.pulls name actions).length
        ++ List.replicate ((s.pulls name actions).length - groups.length) none
  aside : ∀ actions : List (Action K V), (∀ a ∈ actions, a.Spares name)
    → ∀ aside group later, (s.run actions).pullAside name aside = (some group, later)
      → groups[(s.pulls name actions).length]? = some group ∧ later.Serves aside group.pending
  flat : ∀ actions : List (Action K V), (∀ a ∈ actions, a.Spares name)
    → ((s.run actions).flatten name).Serves name
        ((groups.drop (s.pulls name actions).length).flatMap (·.pending))

/-- What a scan of a frozen view answers does not depend on the writes between its pulls, by
induction over its course.
-/
theorem Course.pulls_of_ne_live (course : Course name s scan actions) (frozen : scan.view ≠ .live)
    (opening : Tree K V)
    : (s.pulls name actions).map (·.2) = scan.pulls opening (s.pulls name actions).length := by
  induction course with
  | ended _ => rfl
  | rested idle _ ih => rw [idle, ih frozen]
  | pulled answer _ ih =>
      rw [Scan.next_eq_of_ne_live frozen _ opening] at answer ih
      have still := ih (by rwa [Scan.view_next])
      rw [answer, List.map_cons, still, List.length_cons, Scan.pulls]

variable [TransOrd K]

/-- After a run, a frozen scan has left the groups it has not been pulled for. -/
theorem Course.groups_of_ne_live (course : Course name s scan actions) (frozen : scan.view ≠ .live)
    {opening : Tree K V} (ordered : (scan.view.tree opening).Ordered)
    : ∃ later, (s.run actions).readers.get? name = some (.scan later) ∧ later.view = scan.view
        ∧ later.groups opening
          = (scan.groups opening).drop (s.pulls name actions).length := by
  induction course with
  | ended here => exact ⟨_, here, rfl, rfl⟩
  | rested idle _ ih =>
      rw [idle]
      exact ih frozen ordered
  | @pulled s scan a rest answer _ ih =>
      rw [Scan.next_eq_of_ne_live frozen _ opening] at ih
      have same := Scan.view_next opening scan
      obtain ⟨later, there, view, left⟩ := ih (same ▸ frozen) (same ▸ ordered)
      refine ⟨later, there, view.trans same, ?_⟩
      rw [left, (Scan.next_eq ordered).2, List.drop_tail, answer, List.length_cons]

/-- A frozen flat scan serves what it has left. -/
theorem serves_flat {flat : FlatScan K V} {view : View K V}
    (here : s.readers.get? name = some (.flat flat)) (reads : flat.Reads view)
    (frozen : view ≠ .live) {opening : Tree K V} (ordered : (view.tree opening).Ordered)
    : s.Serves name (flat.entries opening) := by
  refine serves_of_take (fun reader entries => ∃ flat, reader = .flat flat ∧ flat.Reads view
    ∧ flat.entries opening = entries) ?_ ?_ here ⟨flat, rfl, reads, rfl⟩
  · rintro _ _ ⟨flat, rfl, _⟩
    simp
  · rintro s _ _ n here ⟨flat, rfl, reads, rfl⟩
    have current : (view.tree s.store.contents.tree).Ordered :=
      View.tree_eq_of_ne_live frozen opening _ ▸ ordered
    obtain ⟨front, left, still⟩ := FlatScan.take_eq reads current n
    rw [FlatScan.entries_eq_of_ne_live reads frozen _ opening] at front left
    rw [FlatScan.entries_eq_of_ne_live still frozen _ opening] at left
    simp only [take, here, get?_setReader, if_true]
    exact ⟨front, _, rfl, _, rfl, still, left⟩

/-- A frozen scan yields the groups that it has left. -/
theorem yields_of_ne_live (here : s.readers.get? name = some (.scan scan))
    (frozen : scan.view ≠ .live) {opening : Tree K V}
    (ordered : (scan.view.tree opening).Ordered)
    : s.Yields name (scan.groups opening) where
  pulls actions spared := by
    rw [(course here spared).pulls_of_ne_live frozen opening]
    exact Scan.drains_groups ordered _
  aside actions spared aside group later pulled := by
    obtain ⟨reached, there, view, left⟩ :=
      (course here spared).groups_of_ne_live frozen ordered
    have answer := congrArg Prod.fst (pull_of_pullAside pulled).1
    rw [pull_scan there, Scan.next_eq_of_ne_live (view ▸ frozen) _ opening,
      (Scan.next_eq (view ▸ ordered)).1, left, List.head?_drop] at answer
    exact ⟨answer, serves_pullAside pulled⟩
  flat actions spared := by
    obtain ⟨later, there, view, left⟩ :=
      (course here spared).groups_of_ne_live frozen ordered
    have flattened : ((s.run actions).flatten name).readers.get? name
        = some (.flat (.ofScan later)) := by
      simp [flatten, there, get?_setReader]
    have reads : (FlatScan.ofScan later).Reads scan.view := fun other same => by
      obtain rfl := Option.some.inj same
      exact view
    have serves := serves_flat flattened reads frozen ordered
    simpa [FlatScan.entries, FlatScan.ofScan, Scan.entries, left] using serves

/-- A scan that is opened in a snapshot mode goes through what it would have yielded if it had been
drained when it was opened, whatever is written and whichever other readers go on in between; and
from the same store, in every mode, the scan drains to the same groups.
-/
theorem snapshot_isolation (h : s.store.Reachable) {d : Descriptor K}
    (opened : (s.store.scan d).1 = .ok scan) (name : String)
    : ∃ groups, scan.Drains s.store.contents.tree groups
        ∧ (s.store.visibility.isSnapshot = true → (s.openScan name d).2.Yields name groups)
        ∧ ∀ visibility, ∃ other more, ({ s.store with visibility }.scan d).1 = .ok other
            ∧ other.Drains s.store.contents.tree more
            ∧ more.map Group.unshared = groups.map Group.unshared := by
  have coherent := h.coherent
  have ordered := Store.ordered_of_scan coherent opened
  refine ⟨scan.groups s.store.contents.tree, Scan.drains_groups ordered, fun snapshot => ?_,
    fun visibility => ?_⟩
  · exact yields_of_ne_live (get?_openScan opened) (Store.view_ne_live snapshot opened) ordered
  · obtain ⟨other, again, same⟩ := Store.scan_visibility coherent opened visibility
    have orderedOther : (other.view.tree s.store.contents.tree).Ordered :=
      Store.ordered_of_scan (s := { s.store with visibility }) coherent again
    exact ⟨other, other.groups s.store.contents.tree, again, Scan.drains_groups orderedOther, same⟩

/-- The index is cleared after the first group. -/
theorem afterMoves_isolated
    : ((((ofStore Store.afterMoves).openScan "a" (.all .ascending)).2.pulls "a"
          [.pull "a", .write .clear, .pull "a", .pull "a"]).map fun answer =>
        answer.2.map (·.pending))
      = [some [⟨⟨[1]⟩, "c"⟩], some [⟨⟨[2]⟩, "d"⟩], none] := by
  have opened : (Store.afterMoves.scan (.all .ascending)).1
      = .ok (.start (Store.afterMoves.viewFor (.all .ascending)) (.all .ascending) none) :=
    Store.scan_eq rfl rfl rfl
  obtain ⟨groups, drains, yields, _⟩ := snapshot_isolation (s := ofStore Store.afterMoves)
    Store.afterMoves_reachable opened "a"
  have answers := (yields rfl).pulls [.pull "a", .write .clear, .pull "a", .pull "a"] (by decide)
  have pulled := answers.trans (drains 3).symm
  have shown := congrArg (List.map (Option.map (·.pending))) pulled
  rw [List.map_map] at shown
  exact shown.trans (by decide)

end PagedIndex.Session
