import PagedIndex.Proofs.Scan.Draining
import PagedIndex.Scan.Flat

/-! Scans of a view that does not follow the index. What such a scan has left does not depend on the
current version, so it is the same list whenever it is asked for, group by group or entry by entry.
-/

namespace PagedIndex

variable {view : View K V}

theorem View.tree_eq_of_ne_live (frozen : view ≠ .live) (a b : Tree K V)
    : view.tree a = view.tree b := by
  cases view with
  | live => contradiction
  | pinned tree => rfl
  | copied tree => rfl

namespace Scan

variable [Ord K] {s : Scan K V} {current : Tree K V}

theorem ahead_eq_of_ne_live (frozen : s.view ≠ .live) (a b : Tree K V) : s.ahead a = s.ahead b := by
  rw [ahead, ahead, View.tree_eq_of_ne_live frozen a b]

theorem next_eq_of_ne_live (frozen : s.view ≠ .live) (a b : Tree K V) : s.next a = s.next b := by
  rw [next, next, ahead_eq_of_ne_live frozen a b]

theorem groups_eq_of_ne_live (frozen : s.view ≠ .live) (a b : Tree K V)
    : s.groups a = s.groups b := by
  rw [groups, groups, ahead_eq_of_ne_live frozen a b]

/-- A scan yields no group that has nothing pending. -/
theorem pending_ne_nil {leaves : List (Leaf K V)} {group : Group K V}
    (member : group ∈ s.groupsOf leaves)
    : group.pending ≠ [] := by
  induction leaves generalizing s with
  | nil => exact absurd member List.not_mem_nil
  | cons leaf rest ih =>
      unfold groupsOf at member
      split at member
      · exact absurd member List.not_mem_nil
      · split at member
        · exact ih member
        next something =>
          rcases List.mem_cons.mp member with rfl | later
          · simpa [groupOf] using something
          · exact ih later

/-- A pull finds nothing left, or yields a group whose entries are the first that are left. -/
theorem entries_cases [Std.TransOrd K] (ordered : (s.view.tree current).Ordered)
    : ((s.next current).1 = none ∧ s.entries current = [])
      ∨ ∃ group entry pending, (s.next current).1 = some group ∧ group.pending = entry :: pending
          ∧ s.entries current = entry :: pending ++ (s.next current).2.entries current := by
  obtain ⟨first, others⟩ := next_eq ordered
  rw [first, entries, entries, others]
  cases left : s.groups current with
  | nil => exact Or.inl ⟨rfl, rfl⟩
  | cons group rest =>
      have filled : group.pending ≠ [] := by
        have member : group ∈ s.groups current := by simp [left]
        exact pending_ne_nil member
      obtain ⟨entry, pending, shape⟩ := List.exists_cons_of_ne_nil filled
      exact Or.inr ⟨group, entry, pending, rfl, shape, by simp [shape]⟩

end Scan

namespace FlatScan

variable [Ord K] {f : FlatScan K V} {current : Tree K V}

/-- A flat scan reads a view, or has let go of it. -/
def Reads (f : FlatScan K V) (view : View K V) : Prop := ∀ scan ∈ f.scan, scan.view = view

theorem entries_eq_of_ne_live (reads : f.Reads view) (frozen : view ≠ .live) (a b : Tree K V)
    : f.entries a = f.entries b := by
  have same : f.scan.map (·.entries a) = f.scan.map (·.entries b) := by
    refine Option.map_congr fun scan held => ?_
    have frozenScan : scan.view ≠ .live := reads scan held ▸ frozen
    rw [Scan.entries, Scan.entries, Scan.groups_eq_of_ne_live frozenScan a b]
  rw [entries, entries, same]

variable [Std.TransOrd K]

omit [Std.TransOrd K] in
/-- When its group is read up, a flat scan pulls the next one. -/
theorem next_of_read (read : (f.group.map (·.pending)).getD [] = [])
    : f.next current
      = match f.scan.map (·.next current) with
        | some (some group, scan) =>
          (group.pending.head?, ⟨some scan, some { group with pending := group.pending.tail }⟩)
        | _ => (none, ⟨none, none⟩) := by
  unfold next
  split
  next inGroup => simp [inGroup] at read
  next => rfl

/-- Pulling yields the first entry that is left and leaves the others. -/
theorem next_eq (reads : f.Reads view) (ordered : (view.tree current).Ordered)
    : (f.next current).1 = (f.entries current).head?
      ∧ (f.next current).2.entries current = (f.entries current).tail
      ∧ (f.next current).2.Reads view := by
  cases read : (f.group.map (·.pending)).getD [] with
  | cons entry pending =>
      obtain ⟨scan, _ | ⟨key, _, direction, revision⟩⟩ := f
      · simp at read
      · obtain rfl : _ = entry :: pending := read
        exact ⟨rfl, rfl, reads⟩
  | nil =>
      have left : f.entries current = (f.scan.map (·.entries current)).getD [] := by
        rw [entries, read, List.nil_append]
      rw [next_of_read read, left]
      cases found : f.scan with
      | none => simp [entries, Reads]
      | some scan =>
          have reading : scan.view = view := reads scan found
          have later : (scan.next current).2.view = view :=
            (Scan.view_next current scan).trans reading
          rw [Option.map_some, Option.map_some, Option.getD_some]
          rcases Scan.entries_cases (reading ▸ ordered) with
            ⟨dry, nothing⟩ | ⟨group, entry, pending, first, shape, whole⟩
          · have pulled : scan.next current = (none, (scan.next current).2) := Prod.ext dry rfl
            rw [nothing, pulled]
            simp [entries, Reads]
          · have pulled : scan.next current = (some group, (scan.next current).2) :=
              Prod.ext first rfl
            rw [whole, pulled]
            refine ⟨by simp [shape], by simp [entries, shape], fun next same => ?_⟩
            obtain rfl := Option.some.inj same
            exact later

/-- Taking some entries takes the first that are left, by induction on how many. -/
theorem take_eq (reads : f.Reads view) (ordered : (view.tree current).Ordered) (n : Nat)
    : (f.take current n).1 = (f.entries current).take n
      ∧ (f.take current n).2.entries current = (f.entries current).drop n
      ∧ (f.take current n).2.Reads view := by
  induction n generalizing f with
  | zero => exact ⟨by simp [take], by simp [take], reads⟩
  | succ n ih =>
      obtain ⟨first, others, later⟩ := next_eq reads ordered
      obtain ⟨front, rest, still⟩ := ih later
      unfold take
      split
      next g outcome =>
        rw [outcome] at first others later
        have dry : f.entries current = [] := List.head?_eq_none_iff.mp first.symm
        rw [dry] at others ⊢
        exact ⟨rfl, others, later⟩
      next entry g outcome =>
        rw [outcome] at first others front rest still
        obtain ⟨left, whole⟩ := List.head?_eq_some_iff.mp first.symm
        rw [whole, List.tail_cons] at others
        rw [whole, List.take_succ_cons, List.drop_succ_cons, ← others]
        exact ⟨congrArg (entry :: ·) front, rest, still⟩

end FlatScan

end PagedIndex
