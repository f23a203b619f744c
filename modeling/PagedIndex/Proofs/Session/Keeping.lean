import PagedIndex.Proofs.Scan.Draining
import PagedIndex.Proofs.Session.Runs
import PagedIndex.Proofs.Table

/-! What readers keep. A reader keeps the tree of its scan and the bucket of its group, and both
come of a scan that was opened: no action but opening a scan brings a new view into a session, and a
group has its bucket of the tree that its scan reads.
-/

namespace PagedIndex

namespace Reader

/-- The scan that a reader goes on with. -/
def scan? : Reader K V → Option (Scan K V)
  | scan s => some s
  | group _ => none
  | flat f => f.scan

/-- The group that a reader has reached. -/
def group? : Reader K V → Option (Group K V)
  | scan _ => none
  | group g => some g
  | flat f => f.group

theorem holdings_eq (r : Reader K V)
    : r.holdings = ((r.scan?.map holdingsOfScan).getD .empty).append
        ((r.group?.map holdingsOfGroup).getD .empty) := by
  cases r <;> simp [holdings, scan?, group?, Holdings.append, Holdings.empty]

/-- The tree that a reader keeps is that of its scan. -/
theorem mem_trees_iff {r : Reader K V} {tree : Tree K V}
    : tree ∈ r.holdings.trees ↔ ∃ scan, r.scan? = some scan ∧ scan.view.kept? = some tree := by
  rw [holdings_eq, Holdings.append, List.mem_append]
  have groups : ((r.group?.map holdingsOfGroup).getD .empty).trees = [] := by
    cases r.group? <;> rfl
  rw [groups]
  cases r.scan? with
  | none => simp [Holdings.empty]
  | some scan => simp [holdingsOfScan]

/-- The buckets that a reader keeps are that of its group. -/
theorem mem_revisions_iff {r : Reader K V} {revision : Nat}
    : revision ∈ r.holdings.revisions
      ↔ ∃ group, r.group? = some group ∧ group.revision = revision := by
  rw [holdings_eq, Holdings.append, List.mem_append]
  have scans : ((r.scan?.map holdingsOfScan).getD .empty).revisions = [] := by
    cases r.scan? <;> rfl
  rw [scans]
  cases r.group? with
  | none => simp [Holdings.empty]
  | some group => simp [holdingsOfGroup, eq_comm]

/-- A reader has come of another while some version was the current one: its scan reads what that
one's did, and its group has the bucket of the group there or one of the tree that the scan there
reads.
-/
structure ComesOf (current : Tree K V) (after before : Reader K V) : Prop where
  scan
    : ∀ later, after.scan? = some later
        → ∃ earlier, before.scan? = some earlier ∧ earlier.view = later.view
  group
    : ∀ later, after.group? = some later
        → (∃ earlier, before.group? = some earlier ∧ earlier.revision = later.revision)
          ∨ ∃ earlier leaf, before.scan? = some earlier
              ∧ leaf ∈ (earlier.view.tree current).leaves ∧ later.revision = leaf.revision

namespace ComesOf

variable {current : Tree K V}

theorem refl (r : Reader K V) : r.ComesOf current r where
  scan later here := ⟨later, here, rfl⟩
  group later here := Or.inl ⟨later, here, rfl⟩

theorem trans {after middle before : Reader K V} (h : after.ComesOf current middle)
    (g : middle.ComesOf current before)
    : after.ComesOf current before where
  scan later here := by
    obtain ⟨between, there, same⟩ := h.scan later here
    obtain ⟨earlier, origin, view⟩ := g.scan between there
    exact ⟨earlier, origin, view.trans same⟩
  group later here := by
    rcases h.group later here with ⟨between, there, same⟩ | ⟨between, leaf, there, met, same⟩
    · rcases g.group between there with ⟨earlier, origin, kept⟩ | ⟨earlier, leaf, origin, met, own⟩
      · exact Or.inl ⟨earlier, origin, kept.trans same⟩
      · exact Or.inr ⟨earlier, leaf, origin, met, same.symm.trans own⟩
    · obtain ⟨earlier, origin, view⟩ := g.scan between there
      exact Or.inr ⟨earlier, leaf, origin, view ▸ met, same⟩

variable [Ord K]

/-- A group has the bucket of a leaf that the scan has met, by induction over the leaves. -/
theorem exists_leaf_of_advance {scan : Scan K V} {leaves : List (Leaf K V)} {group : Group K V}
    (pulled : (scan.advance leaves).1 = some group)
    : ∃ leaf ∈ leaves, group.revision = leaf.revision := by
  induction leaves generalizing scan with
  | nil => contradiction
  | cons leaf rest ih =>
      unfold Scan.advance at pulled
      split at pulled
      · contradiction
      · split at pulled
        · obtain ⟨later, met, same⟩ := ih pulled
          exact ⟨later, List.mem_cons_of_mem leaf met, same⟩
        · obtain rfl := Option.some.inj pulled
          exact ⟨leaf, List.mem_cons_self, rfl⟩

/-- A group that is pulled has a bucket of the tree that the scan reads. -/
theorem exists_leaf_of_next {scan : Scan K V} {group : Group K V}
    (pulled : (scan.next current).1 = some group)
    : ∃ leaf ∈ (scan.view.tree current).leaves, group.revision = leaf.revision := by
  obtain ⟨leaf, met, same⟩ := exists_leaf_of_advance pulled
  refine ⟨leaf, ?_, same⟩
  unfold Scan.ahead at met
  split at met
  · exact absurd met List.not_mem_nil
  · rw [Tree.ahead, Direction.mem_arrange] at met
    exact List.mem_of_mem_filter met

theorem pull (scan : Scan K V)
    : (Reader.scan (scan.next current).2).ComesOf current (.scan scan) where
  scan later here := by
    obtain rfl := Option.some.inj here
    exact ⟨scan, rfl, (Scan.view_next current scan).symm⟩
  group later here := by contradiction

theorem aside {scan : Scan K V} {group : Group K V} (pulled : (scan.next current).1 = some group)
    : (Reader.group group).ComesOf current (.scan scan) where
  scan later here := by contradiction
  group later here := by
    obtain rfl := Option.some.inj here
    obtain ⟨leaf, met, same⟩ := exists_leaf_of_next pulled
    exact Or.inr ⟨scan, leaf, rfl, met, same⟩

omit [Ord K] in
theorem flatten (scan : Scan K V) : (Reader.flat (.ofScan scan)).ComesOf current (.scan scan) where
  scan later here := ⟨later, here, rfl⟩
  group later here := by contradiction

omit [Ord K] in
theorem takeGroup (g : Group K V) (n : Nat)
    : (Reader.group (g.take n).2).ComesOf current (.group g) where
  scan later here := by contradiction
  group later here := by
    obtain rfl := Option.some.inj here
    exact Or.inl ⟨g, rfl, rfl⟩

theorem nextFlat (f : FlatScan K V)
    : (Reader.flat (f.next current).2).ComesOf current (.flat f) := by
  unfold FlatScan.next
  split
  next entry pending key direction revision inGroup =>
    refine ⟨fun later here => ⟨later, here, rfl⟩, fun later here => ?_⟩
    obtain rfl := Option.some.inj here
    exact Or.inl ⟨_, inGroup, rfl⟩
  next =>
    split
    next group later outcome =>
      obtain ⟨scan, found, pulled⟩ := Option.map_eq_some_iff.mp outcome
      have first : (scan.next current).1 = some group := congrArg Prod.fst pulled
      obtain rfl : (scan.next current).2 = later := congrArg Prod.snd pulled
      refine ⟨fun other here => ?_, fun other here => ?_⟩
      · obtain rfl := Option.some.inj here
        exact ⟨scan, found, (Scan.view_next current scan).symm⟩
      · obtain rfl := Option.some.inj here
        obtain ⟨leaf, met, same⟩ := exists_leaf_of_next first
        exact Or.inr ⟨scan, leaf, found, met, same⟩
    next =>
      refine ⟨fun later here => ?_, fun later here => ?_⟩
      · exact absurd (show none = some later from here) (Option.some_ne_none later).symm
      · exact absurd (show none = some later from here) (Option.some_ne_none later).symm

theorem takeFlat (f : FlatScan K V) (n : Nat)
    : (Reader.flat (f.take current n).2).ComesOf current (.flat f) := by
  induction n generalizing f with
  | zero => exact refl _
  | succ n ih =>
      have first : (Reader.flat (f.next current).2).ComesOf current (.flat f) := nextFlat f
      unfold FlatScan.take
      split
      next g outcome => rwa [outcome] at first
      next entry g outcome =>
        rw [outcome] at first
        exact (ih g).trans first

end ComesOf

end Reader

namespace Session

variable [Ord K] {s : Session K V} {name : String} {a : Action K V}

omit [Ord K] in
/-- When a reader gives way to one that comes of it, every reader comes of one of the same name. -/
theorem comesOf_of_setReader {other : String} {old new reader : Reader K V}
    (found : s.readers.get? other = some old) (comes : new.ComesOf s.store.contents.tree old)
    (here : (s.setReader other new).readers.get? name = some reader)
    : ∃ before, s.readers.get? name = some before
        ∧ reader.ComesOf s.store.contents.tree before := by
  rw [get?_setReader] at here
  split at here
  next same =>
    obtain rfl := Option.some.inj here
    exact ⟨old, same ▸ found, comes⟩
  next => exact ⟨reader, here, .refl reader⟩

theorem comesOf_of_pull {other : String} {reader : Reader K V}
    (here : (s.pull other).2.readers.get? name = some reader)
    : ∃ before, s.readers.get? name = some before
        ∧ reader.ComesOf s.store.contents.tree before := by
  unfold pull at here
  split at here
  next scan found => exact comesOf_of_setReader found (.pull scan) here
  next => exact ⟨reader, here, .refl reader⟩

/-- Every reader after an action is a scan that was just opened or comes of a reader from before,
which had the same name unless the reader is a group that was set aside.
-/
theorem reader_cases {reader : Reader K V}
    (here : (s.act a).readers.get? name = some reader)
    : (∃ d scan, a = .openScan name d ∧ (s.store.scan d).1 = .ok scan ∧ reader = .scan scan)
      ∨ ∃ other before, s.readers.get? other = some before
          ∧ reader.ComesOf s.store.contents.tree before
          ∧ (other = name ∨ reader.scan? = none) := by
  have kept {before : Reader K V} (there : s.readers.get? name = some before)
      (comes : reader.ComesOf s.store.contents.tree before)
      : ∃ other before, s.readers.get? other = some before
          ∧ reader.ComesOf s.store.contents.tree before
          ∧ (other = name ∨ reader.scan? = none) :=
    ⟨name, before, there, comes, Or.inl rfl⟩
  cases a with
  | write w =>
      rw [act, readers_perform] at here
      exact Or.inr (kept here (.refl reader))
  | openScan other d =>
      simp only [act, openScan] at here
      split at here
      next => exact Or.inr (kept here (.refl reader))
      next scan store outcome =>
        rw [get?_setReader] at here
        split at here
        next same =>
          obtain rfl := Option.some.inj here
          exact Or.inl ⟨d, scan, same ▸ rfl, by rw [outcome], rfl⟩
        next => exact Or.inr (kept here (.refl reader))
  | pull other =>
      obtain ⟨before, there, comes⟩ := comesOf_of_pull here
      exact Or.inr (kept there comes)
  | pullAside other aside =>
      have pulled (same : (s.pull other).2.readers.get? name = some reader) := comesOf_of_pull same
      simp only [act, pullAside] at here
      split at here
      next outcome =>
        rw [outcome] at pulled
        obtain ⟨before, there, comes⟩ := pulled here
        exact Or.inr (kept there comes)
      next group t outcome =>
        rw [outcome] at pulled
        rw [get?_setReader] at here
        split at here
        next same =>
          -- The group comes of the scan that was pulled, which has the other name.
          obtain rfl := Option.some.inj here
          unfold pull at outcome
          split at outcome
          next scan found =>
            exact Or.inr ⟨other, .scan scan, found, .aside (congrArg Prod.fst outcome), Or.inr rfl⟩
          next => simp at outcome
        next =>
          obtain ⟨before, there, comes⟩ := pulled here
          exact Or.inr (kept there comes)
  | flatten other =>
      simp only [act, flatten] at here
      split at here
      next scan found =>
        obtain ⟨before, there, comes⟩ := comesOf_of_setReader found (.flatten scan) here
        exact Or.inr (kept there comes)
      next => exact Or.inr (kept here (.refl reader))
  | take other n =>
      simp only [act, take] at here
      split at here
      next group found =>
        obtain ⟨before, there, comes⟩ := comesOf_of_setReader found (.takeGroup group n) here
        exact Or.inr (kept there comes)
      next flat found =>
        obtain ⟨before, there, comes⟩ := comesOf_of_setReader found (.takeFlat flat n) here
        exact Or.inr (kept there comes)
      next => exact Or.inr (kept here (.refl reader))
  | close other =>
      simp only [act, close, Table.get?_erase] at here
      split at here
      · contradiction
      · exact Or.inr (kept here (.refl reader))

/-! ## What all readers keep together -/

theorem keyed_pull (h : s.readers.Keyed) (name : String) : (s.pull name).2.readers.Keyed := by
  unfold pull
  split
  · exact h.set _ _
  · exact h

theorem keyed_act (h : s.readers.Keyed) (a : Action K V) : (s.act a).readers.Keyed := by
  cases a with
  | write w => exact s.readers_perform w ▸ h
  | openScan name d =>
      simp only [act, openScan]
      split
      · exact h
      · exact h.set _ _
  | pull name => exact keyed_pull h name
  | pullAside name aside =>
      have pulled := keyed_pull h name
      simp only [act, pullAside]
      split
      next outcome => rwa [outcome] at pulled
      next outcome =>
        rw [outcome] at pulled
        exact pulled.set _ _
  | flatten name =>
      simp only [act, flatten]
      split
      · exact h.set _ _
      · exact h
  | take name n =>
      simp only [act, take]
      split
      · exact h.set _ _
      · exact h.set _ _
      · exact h
  | close name => exact h.erase name

theorem keyed_run (h : s.readers.Keyed) (actions : List (Action K V))
    : (s.run actions).readers.Keyed := by
  induction actions generalizing s with
  | nil => exact h
  | cons a rest ih => exact ih (keyed_act h a)

omit [Ord K] in
/-- Readers together keep what each of them keeps, by induction over the readers. -/
theorem mem_foldl_holdings (readers : List (Reader K V)) (held : Holdings K V)
    : (∀ tree, tree ∈ (readers.foldl (fun held reader => held.append reader.holdings) held).trees
        ↔ tree ∈ held.trees ∨ ∃ reader ∈ readers, tree ∈ reader.holdings.trees)
      ∧ ∀ revision,
        revision ∈ (readers.foldl (fun held reader => held.append reader.holdings) held).revisions
        ↔ revision ∈ held.revisions
          ∨ ∃ reader ∈ readers, revision ∈ reader.holdings.revisions := by
  induction readers generalizing held with
  | nil => simp
  | cons reader rest ih =>
      obtain ⟨trees, revisions⟩ := ih (held.append reader.holdings)
      constructor
      · intro tree
        rw [List.foldl_cons, trees, List.exists_mem_cons_iff, Holdings.append, List.mem_append,
          or_assoc]
      · intro revision
        rw [List.foldl_cons, revisions, List.exists_mem_cons_iff, Holdings.append, List.mem_append,
          or_assoc]

omit [Ord K] in
theorem mem_values_iff (h : s.readers.Keyed) {reader : Reader K V}
    : reader ∈ s.readers.values ↔ ∃ name, s.readers.get? name = some reader := by
  simp only [Table.values, List.mem_map, h.get?_eq_some_iff, Prod.exists, exists_eq_right]

/-- The scan under a name, be it read group by group or entry by entry. -/
def scanUnder? (s : Session K V) (name : String) : Option (Scan K V) :=
  (s.readers.get? name).bind Reader.scan?

/-- Every scan after an action was just opened or reads what the scan under its name read. -/
theorem scanUnder?_cases {later : Scan K V} (here : (s.act a).scanUnder? name = some later)
    : (∃ d, a = .openScan name d ∧ (s.store.scan d).1 = .ok later)
      ∨ ∃ earlier, s.scanUnder? name = some earlier ∧ earlier.view = later.view := by
  obtain ⟨reader, found, reads⟩ := Option.bind_eq_some_iff.mp here
  rcases reader_cases found with ⟨d, scan, rfl, opened, rfl⟩ | ⟨other, before, there, comes, own⟩
  · obtain rfl := Option.some.inj reads
    exact Or.inl ⟨d, rfl, opened⟩
  · rcases own with rfl | nothing
    · obtain ⟨earlier, read, same⟩ := comes.scan later reads
      exact Or.inr ⟨earlier, Option.bind_eq_some_iff.mpr ⟨before, there, read⟩, same⟩
    · simp [nothing] at reads

omit [Ord K] in
/-- The trees that a session keeps are those of its scans. -/
theorem mem_trees_holdings_iff (h : s.readers.Keyed) {tree : Tree K V}
    : tree ∈ s.holdings.trees
      ↔ ∃ name scan, s.scanUnder? name = some scan ∧ scan.view.kept? = some tree := by
  simp only [holdings, (mem_foldl_holdings _ _).1, mem_values_iff h, Reader.mem_trees_iff,
    scanUnder?, Option.bind_eq_some_iff]
  constructor
  · rintro (nothing | ⟨reader, ⟨name, here⟩, scan, reads, view⟩)
    · exact absurd nothing List.not_mem_nil
    · exact ⟨name, scan, ⟨reader, here, reads⟩, view⟩
  · rintro ⟨name, scan, ⟨reader, here, reads⟩, view⟩
    exact Or.inr ⟨reader, ⟨name, here⟩, scan, reads, view⟩

omit [Ord K] in
/-- The buckets that a session keeps are those of its groups. -/
theorem mem_revisions_holdings_iff (h : s.readers.Keyed) {revision : Nat}
    : revision ∈ s.holdings.revisions
      ↔ ∃ name reader group, s.readers.get? name = some reader ∧ reader.group? = some group
          ∧ group.revision = revision := by
  simp only [holdings, (mem_foldl_holdings _ _).2, mem_values_iff h, Reader.mem_revisions_iff]
  constructor
  · rintro (nothing | ⟨reader, ⟨name, here⟩, group, reached, own⟩)
    · exact absurd nothing List.not_mem_nil
    · exact ⟨name, reader, group, here, reached, own⟩
  · rintro ⟨name, reader, group, here, reached, own⟩
    exact Or.inr ⟨reader, ⟨name, here⟩, group, reached, own⟩

end Session

end PagedIndex
