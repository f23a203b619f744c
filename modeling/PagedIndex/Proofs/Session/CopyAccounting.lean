import PagedIndex.Proofs.Session.Keeping
import PagedIndex.Proofs.Store.Charges
import PagedIndex.Proofs.Store.Views

/-! Copy accounting. What a write copies depends on what open readers keep at that moment, and this
on the history of the session: the current version of the tree is kept just if some scan that has
not been dropped was opened since the index was last altered. Readers of private copies keep trees
too, but none that a write could find.
-/

namespace PagedIndex

open Std

variable [Ord K]

namespace Store

variable {s : Store K V} {d : Descriptor K} {scan : Scan K V}

/-- The tree that a scan keeps from its opening on is a private copy or, in one mode, the current
version.
-/
theorem kept_of_scan (opened : (s.scan d).1 = .ok scan) {tree : Tree K V}
    (kept : scan.view.kept? = some tree)
    : tree.Private
      ∨ (s.visibility = .copyOnWrite ∧ d.isEmptyRange = false ∧ tree = s.contents.tree) := by
  rcases (scan_cases opened).2 with ⟨_, rfl⟩ | ⟨possible, resume, _, rfl⟩
  · obtain rfl := Option.some.inj kept
    exact Or.inl (Tree.private_copyOf [])
  · simp only [Scan.start, viewFor] at kept
    split at kept
    · contradiction
    next mode => exact Or.inr ⟨mode, possible, (Option.some.inj kept).symm⟩
    · obtain rfl := Option.some.inj kept
      exact Or.inl (s.contents.tree.private_restrictedTo d)

theorem kept_of_copyOnWrite (mode : s.visibility = .copyOnWrite) (possible : d.isEmptyRange = false)
    (opened : (s.scan d).1 = .ok scan)
    : scan.view.kept? = some s.contents.tree := by
  rcases (scan_cases opened).2 with ⟨nothing, _⟩ | ⟨_, resume, _, rfl⟩
  · simp [possible] at nothing
  · simp [Scan.start, viewFor, mode, View.kept?]

theorem view_of_copyOnRead (mode : s.visibility = .copyOnRead) (opened : (s.scan d).1 = .ok scan)
    : ∃ tree, scan.view = .copied tree ∧ tree.Private := by
  rcases (scan_cases opened).2 with ⟨_, rfl⟩ | ⟨_, resume, _, rfl⟩
  · exact ⟨_, rfl, Tree.private_copyOf []⟩
  · have view : s.viewFor d = .copied (s.contents.tree.restrictedTo d) := by simp [viewFor, mode]
    exact ⟨_, view, s.contents.tree.private_restrictedTo d⟩

end Store

namespace Session

variable {s : Session K V} {name : String} {a : Action K V} {store : Store K V}
  {actions : List (Action K V)}

/-! ## What an action does to the store -/

theorem store_act (s : Session K V) (a : Action K V)
    : (s.act a).store = match a with
      | .write w => s.store.perform s.holdings w
      | .openScan _ d => (s.store.scan d).2
      | _ => s.store := by
  cases a with
  | write w => exact s.store_perform w
  | openScan name d => exact s.store_openScan name d
  | pull name => exact s.store_pull name
  | pullAside name aside => exact s.store_pullAside name aside
  | flatten name => exact s.store_flatten name
  | take name n => exact s.store_take name n
  | close name => rfl

/-- Only a write may copy something for a writer. -/
theorem quiet_act (reads : ∀ w, a ≠ .write w) : s.store.Quiet (s.act a).store := by
  rw [store_act]
  split
  next w => exact absurd rfl (reads w)
  next d => exact s.store.quiet_scan d
  next => exact ⟨rfl, rfl, rfl⟩

theorem visibility_act (s : Session K V) (a : Action K V)
    : (s.act a).store.visibility = s.store.visibility := by
  rw [store_act]
  split
  · exact s.store.visibility_perform _ _
  · exact (s.store.quiet_scan _).visibility
  · rfl

/-- The index is altered: something effective is written, or everything is dropped. -/
def Alters (s : Session K V) (a : Action K V) : Prop :=
  ∃ w, a = .write w ∧ (s.store.contents.Effective w ∨ w = .clear)

/-- Nothing but a write alters the index. -/
theorem not_alters (apart : ∀ w, a ≠ .write w) : ¬s.Alters a := by
  rintro ⟨w, writes, _⟩
  exact apart w writes

theorem contents_act (unaltered : ¬s.Alters a) : (s.act a).store.contents = s.store.contents := by
  rw [store_act]
  split
  next w =>
    rw [Store.contents_perform]
    exact Contents.perform_of_ineffective fun alters => unaltered ⟨w, rfl, alters⟩
  · exact s.store.contents_scan _
  · rfl

theorem lt_version_act [TransOrd K] (h : s.store.contents.Coherent) (alters : s.Alters a)
    : s.store.contents.tree.version < (s.act a).store.contents.tree.version := by
  obtain ⟨w, rfl, alters⟩ := alters
  rw [act, store_perform, Store.contents_perform]
  exact Contents.lt_version_perform h alters

/-! ## Scans that keep the current version -/

/-- A scan over a range that can hold keys is opened under a name. -/
def Opens (s : Session K V) (name : String) (a : Action K V) : Prop :=
  ∃ d scan, a = .openScan name d ∧ d.isEmptyRange = false ∧ (s.store.scan d).1 = .ok scan

/-- The scan under a name is dropped: another one is opened in its place, or none is left there. -/
def Drops (s : Session K V) (name : String) (a : Action K V) : Prop :=
  (∃ d scan, a = .openScan name d ∧ (s.store.scan d).1 = .ok scan)
  ∨ (s.act a).scanUnder? name = none

/-- The scan under a name keeps the current version of the tree. -/
def Pins (s : Session K V) (name : String) : Prop :=
  ∃ scan tree, s.scanUnder? name = some scan ∧ scan.view.kept? = some tree
    ∧ tree.version = s.store.contents.tree.version

/-- No scan keeps a version that is yet to come. -/
def Bounded (s : Session K V) : Prop :=
  ∀ name scan tree, s.scanUnder? name = some scan → scan.view.kept? = some tree
    → tree.version ≤ s.store.contents.tree.version

theorem scanUnder?_openScan {d : Descriptor K} {scan : Scan K V}
    (opened : (s.store.scan d).1 = .ok scan)
    : (s.act (.openScan name d)).scanUnder? name = some scan := by
  rw [scanUnder?, act, get?_openScan opened]
  rfl

/-- A scan that has just been opened keeps the current version unless its range is empty. Then it
keeps a copy of nothing, which has not the number of any version.
-/
theorem pins_openScan_iff (numbered : s.store.contents.tree.Numbered)
    (mode : s.store.visibility = .copyOnWrite) {d : Descriptor K} {scan : Scan K V}
    (opened : (s.store.scan d).1 = .ok scan)
    : (s.act (.openScan name d)).Pins name ↔ d.isEmptyRange = false := by
  have here : (s.act (.openScan name d)).scanUnder? name = some scan := scanUnder?_openScan opened
  have contents : (s.act (.openScan name d)).store.contents = s.store.contents :=
    contents_act (not_alters fun w => by simp)
  constructor
  · rintro ⟨later, tree, there, kept, current⟩
    obtain rfl := Option.some.inj (here.symm.trans there)
    rcases Store.kept_of_scan opened kept with copy | ⟨_, possible, _⟩
    · have apart := numbered.version
      rw [copy.version, contents] at current
      omega
    · exact possible
  · intro possible
    exact ⟨scan, _, here, Store.kept_of_copyOnWrite mode possible opened, by rw [contents]⟩

/-! ## Runs without readers at the start -/

/-- The session that a run leads to from a store without readers. -/
def reached (store : Store K V) (actions : List (Action K V)) : Session K V :=
  (ofStore store).run actions

/-- In a run a scan over a range that can hold keys was opened under a name, and since then the
index has not been altered and the scan not been dropped.
-/
inductive OpenSince (store : Store K V) (name : String) : List (Action K V) → Prop
  | opened {before : List (Action K V)} {a : Action K V} (opens : (reached store before).Opens name a)
    : OpenSince store name (before ++ [a])
  | kept {before : List (Action K V)} {a : Action K V} (earlier : OpenSince store name before)
      (unaltered : ¬(reached store before).Alters a) (spared : ¬(reached store before).Drops name a)
    : OpenSince store name (before ++ [a])

theorem reached_concat (store : Store K V) (before : List (Action K V)) (a : Action K V)
    : reached store (before ++ [a]) = (reached store before).act a := by
  simp [reached, run]

theorem scanUnder?_reached_nil (store : Store K V) (name : String)
    : (reached store []).scanUnder? name = none :=
  rfl

theorem openSince_concat_iff {before : List (Action K V)}
    : OpenSince store name (before ++ [a])
      ↔ (reached store before).Opens name a
        ∨ (OpenSince store name before ∧ ¬(reached store before).Alters a
          ∧ ¬(reached store before).Drops name a) := by
  constructor
  · intro since
    generalize whole : before ++ [a] = actions at since
    cases since with
    | opened opens =>
        obtain ⟨rfl, same⟩ := List.append_inj' whole rfl
        obtain rfl := List.singleton_inj.mp same
        exact Or.inl opens
    | kept earlier unaltered spared =>
        obtain ⟨rfl, same⟩ := List.append_inj' whole rfl
        obtain rfl := List.singleton_inj.mp same
        exact Or.inr ⟨earlier, unaltered, spared⟩
  · rintro (opens | ⟨earlier, unaltered, spared⟩)
    · exact .opened opens
    · exact .kept earlier unaltered spared

theorem not_openSince_nil : ¬OpenSince store name [] := by
  intro since
  generalize whole : ([] : List (Action K V)) = actions at since
  cases since <;> simp at whole

theorem keyed_reached (store : Store K V) (actions : List (Action K V))
    : (reached store actions).readers.Keyed :=
  keyed_run (s := ofStore store) Table.keyed_empty actions

theorem visibility_reached (store : Store K V) (actions : List (Action K V))
    : (reached store actions).store.visibility = store.visibility := by
  induction actions using List.reverseRecOn with
  | nil => rfl
  | append_singleton before a ih => rw [reached_concat, visibility_act, ih]

/-- A scan that is spared is not dropped, not even by the pull that finds nothing left. -/
theorem not_drops_of_spares {scan : Scan K V} (here : s.readers.get? name = some (.scan scan))
    (spared : a.Spares name)
    : ¬s.Drops name a := by
  rintro (⟨d, _, rfl, _⟩ | gone)
  · exact spared rfl
  · rcases act_scan here spared with ⟨_, stays⟩ | ⟨_, goes⟩
    · simp [scanUnder?, stays, Reader.scan?] at gone
    · simp [scanUnder?, goes, Reader.scan?] at gone

/-! ## Private copies -/

/-- In the other modes scans keep private copies only. -/
theorem private_reached (mode : store.visibility ≠ .copyOnWrite) (actions : List (Action K V))
    {scan : Scan K V} (here : (reached store actions).scanUnder? name = some scan)
    {tree : Tree K V} (kept : scan.view.kept? = some tree)
    : tree.Private := by
  induction actions using List.reverseRecOn generalizing name scan with
  | nil => simp [scanUnder?_reached_nil] at here
  | append_singleton before a ih =>
      rw [reached_concat] at here
      rcases scanUnder?_cases here with ⟨d, rfl, opened⟩ | ⟨earlier, there, same⟩
      · rw [← visibility_reached store before] at mode
        exact (Store.kept_of_scan opened kept).resolve_right fun pinned => mode pinned.1
      · exact ih there (same ▸ kept)

/-- Scans of private copies stay with them, and their groups have the buckets of the copies. -/
theorem copied_reached (mode : store.visibility = .copyOnRead) (actions : List (Action K V))
    {reader : Reader K V} (here : (reached store actions).readers.get? name = some reader)
    : (∀ scan, reader.scan? = some scan → ∃ tree, scan.view = .copied tree ∧ tree.Private)
      ∧ ∀ group, reader.group? = some group → group.revision = 0 := by
  induction actions using List.reverseRecOn generalizing name reader with
  | nil => simp [reached, run, ofStore] at here
  | append_singleton before a ih =>
      rw [reached_concat] at here
      rcases reader_cases here with ⟨d, scan, rfl, opened, rfl⟩ | ⟨other, origin, there, comes, _⟩
      · refine ⟨fun later same => ?_, fun later same => absurd same (by simp [Reader.group?])⟩
        obtain rfl := Option.some.inj same
        exact Store.view_of_copyOnRead ((visibility_reached store before).trans mode) opened
      · obtain ⟨copies, groups⟩ := ih there
        refine ⟨fun later reads => ?_, fun later at_ => ?_⟩
        · obtain ⟨earlier, read, same⟩ := comes.scan later reads
          exact same ▸ copies earlier read
        · rcases comes.group later at_ with
            ⟨earlier, found, same⟩ | ⟨earlier, leaf, read, met, same⟩
          · exact same ▸ groups earlier found
          · obtain ⟨tree, view, copy⟩ := copies earlier read
            rw [view] at met
            exact same.trans (copy.revisions leaf met)

/-! ## What is kept in a run -/

theorem trees_reached (mode : store.visibility ≠ .copyOnWrite) (actions : List (Action K V))
    : ∀ tree ∈ (reached store actions).holdings.trees, tree.Private := by
  intro tree member
  obtain ⟨name, scan, here, kept⟩ :=
    (mem_trees_holdings_iff (keyed_reached store actions)).mp member
  exact private_reached mode actions here kept

omit [Ord K] in
/-- What is kept is private if the trees of all scans and the buckets of all groups are. -/
theorem private_holdings (keyed : s.readers.Keyed)
    (copies
      : ∀ name scan tree, s.scanUnder? name = some scan → scan.view.kept? = some tree
          → tree.Private)
    (groups
      : ∀ name reader group, s.readers.get? name = some reader → reader.group? = some group
          → group.revision = 0)
    : s.holdings.Private where
  trees tree member := by
    obtain ⟨name, scan, here, kept⟩ := (mem_trees_holdings_iff keyed).mp member
    exact copies name scan tree here kept
  revisions revision member := by
    obtain ⟨name, reader, group, here, at_, rfl⟩ := (mem_revisions_holdings_iff keyed).mp member
    exact groups name reader group here at_

theorem holdings_of_copyOnRead (mode : store.visibility = .copyOnRead) (actions : List (Action K V))
    : (reached store actions).holdings.Private := by
  have apart : store.visibility ≠ .copyOnWrite := by simp [mode]
  exact private_holdings (keyed_reached store actions)
    (fun _ _ tree here => private_reached apart actions here)
    (fun _ _ group here => (copied_reached mode actions here).2 group)

theorem numbered_reached (h : store.Reachable) (actions : List (Action K V))
    : (reached store actions).store.contents.tree.Numbered :=
  (reachable_run (s := ofStore store) h actions).numbered

/-! ## The accounts -/

/-- An action counts no copy on account of what is private. -/
theorem copies_act (numbered : s.store.contents.tree.Numbered) (a : Action K V)
    : ((∀ tree ∈ s.holdings.trees, tree.Private)
        → (s.act a).store.metrics.treeCopies = s.store.metrics.treeCopies)
      ∧ (s.holdings.Private
        → (s.act a).store.metrics.bucketCopies = s.store.metrics.bucketCopies) := by
  by_cases writes : ∃ w, a = .write w
  · obtain ⟨w, rfl⟩ := writes
    rw [act, store_perform]
    exact ⟨fun copies => Store.treeCopies_perform_of_private numbered copies w,
      fun copies => Store.bucketCopies_perform_of_private numbered copies w⟩
  · have quiet := quiet_act (s := s) fun w same => writes ⟨w, same⟩
    exact ⟨fun _ => quiet.treeCopies, fun _ => quiet.bucketCopies⟩

/-- The accounts of the copies that are made in a run and by the action that follows it. -/
structure CopyAccounts (store : Store K V) (actions : List (Action K V)) : Prop where
  /-- Writers copy the tree only on account of scans that keep versions of it. -/
  treeCopies
    : store.visibility ≠ .copyOnWrite
        → (reached store actions).store.metrics.treeCopies = store.metrics.treeCopies
  bucketCopies
    : store.visibility = .copyOnRead
        → (reached store actions).store.metrics.bucketCopies = store.metrics.bucketCopies
  /-- A scan of a private copy is charged for the keys that are in its range at its opening. -/
  readCopies
    : store.visibility = .copyOnRead
        → ∀ name d scan, ((reached store actions).store.scan d).1 = .ok scan
        → d.isEmptyRange = false
        → ((reached store actions).act (.openScan name d)).store.metrics.readCopies
          = (reached store actions).store.metrics.readCopies
            + UInt64.ofNat ((reached store actions).store.contents.tree.leaves.filter fun leaf =>
                d.contains leaf.key).length
  /-- A write that finds the current version kept copies the tree once, whatever it takes to do. -/
  shared
    : store.visibility = .copyOnWrite
        → ∀ w, (reached store actions).store.contents.Effective w
        → (∃ name, OpenSince store name actions)
        → ((reached store actions).act (.write w)).store.metrics.treeCopies
          = (reached store actions).store.metrics.treeCopies + 1
  unshared
    : store.visibility = .copyOnWrite
        → ∀ w, ¬((reached store actions).store.contents.Effective w
          ∧ ∃ name, OpenSince store name actions)
        → ((reached store actions).act (.write w)).store.metrics.treeCopies
          = (reached store actions).store.metrics.treeCopies
  /-- While no reader has a scan or a group, writes copy nothing. -/
  idle
    : (∀ name reader, (reached store actions).readers.get? name = some reader
          → reader.scan? = none ∧ reader.group? = none)
        → ∀ w,
          ((reached store actions).act (.write w)).store.metrics.treeCopies
            = (reached store actions).store.metrics.treeCopies
          ∧ ((reached store actions).act (.write w)).store.metrics.bucketCopies
            = (reached store actions).store.metrics.bucketCopies

/-! ## Versions in a run -/

variable [TransOrd K]

theorem version_le_act (h : s.store.contents.Coherent) (a : Action K V)
    : s.store.contents.tree.version ≤ (s.act a).store.contents.tree.version := by
  by_cases alters : s.Alters a
  · exact Nat.le_of_lt (lt_version_act h alters)
  · rw [contents_act alters]

theorem bounded_act (h : s.store.contents.Coherent) (bounded : s.Bounded) (a : Action K V)
    : (s.act a).Bounded := by
  intro name later tree here kept
  rcases scanUnder?_cases here with ⟨d, rfl, opened⟩ | ⟨earlier, there, same⟩
  · rcases Store.kept_of_scan opened kept with copy | ⟨_, _, rfl⟩
    · rw [copy.version]
      exact Nat.zero_le _
    · exact version_le_act h _
  · rw [← same] at kept
    exact Nat.le_trans (bounded name earlier tree there kept) (version_le_act h a)

/-- A scan that has not just been opened keeps the current version if it kept it before and neither
the index was altered nor the scan dropped.
-/
theorem pins_act_of_unopened (h : s.store.contents.Coherent) (bounded : s.Bounded)
    (unopened : ¬∃ d scan, a = .openScan name d ∧ (s.store.scan d).1 = .ok scan)
    : (s.act a).Pins name ↔ s.Pins name ∧ ¬s.Alters a ∧ ¬s.Drops name a := by
  constructor
  · rintro ⟨later, tree, here, kept, current⟩
    rcases scanUnder?_cases here with ⟨d, rfl, opened⟩ | ⟨earlier, there, same⟩
    · exact absurd ⟨d, later, rfl, opened⟩ unopened
    · rw [← same] at kept
      have below := bounded name earlier tree there kept
      refine ⟨⟨earlier, tree, there, kept, ?_⟩, fun alters => ?_, ?_⟩
      · have := version_le_act h a
        omega
      · have := lt_version_act h alters
        omega
      · rintro (opens | gone)
        · exact unopened opens
        · simp [here] at gone
  · rintro ⟨⟨earlier, tree, there, kept, current⟩, unaltered, spared⟩
    obtain ⟨later, here⟩ : ∃ later, (s.act a).scanUnder? name = some later :=
      Option.ne_none_iff_exists'.mp fun gone => spared (Or.inr gone)
    rcases scanUnder?_cases here with ⟨d, rfl, opened⟩ | ⟨origin, found, same⟩
    · exact absurd ⟨d, later, rfl, opened⟩ unopened
    · obtain rfl := Option.some.inj (there.symm.trans found)
      rw [same] at kept
      exact ⟨later, tree, here, kept, by rw [contents_act unaltered, current]⟩

/-- After an action a scan keeps the current version if it has just been opened, or if it kept it
before and neither the index was altered nor the scan dropped.
-/
theorem pins_act (h : s.store.contents.Coherent) (numbered : s.store.contents.tree.Numbered)
    (mode : s.store.visibility = .copyOnWrite) (bounded : s.Bounded) (name : String)
    (a : Action K V)
    : (s.act a).Pins name
      ↔ s.Opens name a ∨ (s.Pins name ∧ ¬s.Alters a ∧ ¬s.Drops name a) := by
  by_cases opening : ∃ d scan, a = .openScan name d ∧ (s.store.scan d).1 = .ok scan
  · -- The new scan is in the place of any other.
    obtain ⟨d, scan, rfl, opened⟩ := opening
    have dropped : s.Drops name (.openScan name d) := Or.inl ⟨d, scan, rfl, opened⟩
    rw [pins_openScan_iff numbered mode opened]
    constructor
    · exact fun possible => Or.inl ⟨d, scan, rfl, possible, opened⟩
    · rintro (⟨_, _, same, possible, _⟩ | ⟨_, _, spared⟩)
      · obtain ⟨_, rfl⟩ := Action.openScan.inj same
        exact possible
      · exact absurd dropped spared
  · have unopened : ¬s.Opens name a := fun ⟨d, scan, opens, _, opened⟩ =>
      opening ⟨d, scan, opens, opened⟩
    rw [or_iff_right unopened]
    exact pins_act_of_unopened h bounded opening

theorem coherent_reached (h : store.Reachable) (actions : List (Action K V))
    : (reached store actions).store.contents.Coherent :=
  (reachable_run (s := ofStore store) h actions).coherent

theorem bounded_reached (h : store.Reachable) (actions : List (Action K V))
    : (reached store actions).Bounded := by
  induction actions using List.reverseRecOn with
  | nil =>
      intro name scan tree here
      simp [scanUnder?_reached_nil] at here
  | append_singleton before a ih =>
      rw [reached_concat]
      exact bounded_act (coherent_reached h before) ih a

/-- The current version is kept just by the scans that were opened since the index was altered and
have not been dropped, by induction from the end of the run.
-/
theorem pins_iff_openSince (h : store.Reachable) (mode : store.visibility = .copyOnWrite)
    (name : String) (actions : List (Action K V))
    : (reached store actions).Pins name ↔ OpenSince store name actions := by
  induction actions using List.reverseRecOn with
  | nil => simp [Pins, scanUnder?_reached_nil, not_openSince_nil]
  | append_singleton before a ih =>
      rw [reached_concat, openSince_concat_iff, ← ih]
      exact pins_act (coherent_reached h before) (numbered_reached h before)
        ((visibility_reached store before).trans mode) (bounded_reached h before) name a

theorem holdsVersion_iff (h : store.Reachable) (mode : store.visibility = .copyOnWrite)
    (actions : List (Action K V))
    : (reached store actions).holdings.holdsVersion (reached store actions).store.contents.tree
        = true
      ↔ ∃ name, OpenSince store name actions := by
  simp only [← pins_iff_openSince h mode, Holdings.holdsVersion, List.any_eq_true,
    mem_trees_holdings_iff (keyed_reached store actions), beq_iff_eq, Pins]
  constructor
  · rintro ⟨tree, ⟨name, scan, here, kept⟩, current⟩
    exact ⟨name, scan, tree, here, kept, current⟩
  · rintro ⟨name, scan, tree, here, kept, current⟩
    exact ⟨tree, ⟨name, scan, here, kept⟩, current⟩

/-- A write copies the tree once if it is effective and the current version is kept. -/
theorem treeCopies_reached_write (h : store.Reachable) (actions : List (Action K V)) (w : Write K V)
    : ((reached store actions).act (.write w)).store.metrics.treeCopies
      = if (reached store actions).store.contents.Effective w
            ∧ (reached store actions).holdings.holdsVersion
              (reached store actions).store.contents.tree
        then (reached store actions).store.metrics.treeCopies + 1
        else (reached store actions).store.metrics.treeCopies := by
  rw [act, store_perform]
  refine Store.treeCopies_perform (coherent_reached h actions) (fun tree member => ?_) w
  obtain ⟨name, scan, here, kept⟩ :=
    (mem_trees_holdings_iff (keyed_reached store actions)).mp member
  exact bounded_reached h actions name scan tree here kept

/-- From a reachable store without readers every run of writes, scans, pulls and drops keeps these
accounts.
-/
theorem copy_accounting (h : store.Reachable) (actions : List (Action K V))
    : CopyAccounts store actions where
  treeCopies mode := by
    induction actions using List.reverseRecOn with
    | nil => rfl
    | append_singleton before a ih =>
        rw [reached_concat, (copies_act (numbered_reached h before) a).1 (trees_reached mode before),
          ih]
  bucketCopies mode := by
    induction actions using List.reverseRecOn with
    | nil => rfl
    | append_singleton before a ih =>
        rw [reached_concat,
          (copies_act (numbered_reached h before) a).2 (holdings_of_copyOnRead mode before), ih]
  readCopies mode name d scan opened possible := by
    rw [act, store_openScan]
    exact Store.readCopies_scan ((visibility_reached store actions).trans mode) opened possible
  shared mode w effective since := by
    rw [treeCopies_reached_write h, if_pos ⟨effective, (holdsVersion_iff h mode actions).mpr since⟩]
  unshared mode w apart := by
    have unkept := fun both : _ ∧ _ => apart (both.imp_right (holdsVersion_iff h mode actions).mp)
    rw [treeCopies_reached_write h, if_neg unkept]
  idle alone w := by
    have nothing : (reached store actions).holdings.Private := by
      refine private_holdings (keyed_reached store actions) ?_ ?_
      · intro name scan tree here
        obtain ⟨reader, found, reads⟩ := Option.bind_eq_some_iff.mp here
        simp [(alone name reader found).1] at reads
      · intro name reader group here at_
        simp [(alone name reader here).2] at at_
    obtain ⟨tree, bucket⟩ := copies_act (numbered_reached h actions) (.write w)
    exact ⟨tree nothing.trees, bucket nothing⟩

/-- A scan that has been read to its end still keeps the version it reads when a record moves. -/
theorem afterMoves_accounted
    : Store.afterMoves.Reachable
      ∧ OpenSince Store.afterMoves "a" [.openScan "a" (.equality 5 .ascending), .pull "a", .pull "a"]
      ∧ ((reached Store.afterMoves
            [.openScan "a" (.equality 5 .ascending), .pull "a", .pull "a"]).act
          (.write (.insert 5 ⟨⟨[2]⟩, "g"⟩))).store.metrics.treeCopies
        = (reached Store.afterMoves
            [.openScan "a" (.equality 5 .ascending), .pull "a", .pull "a"]).store.metrics.treeCopies
          + 1 := by
  have opened : (Store.afterMoves.scan (.equality 5 .ascending)).1
      = .ok (.start (Store.afterMoves.viewFor (.equality 5 .ascending))
          (.equality 5 .ascending) none) :=
    Store.scan_eq rfl rfl rfl
  have opens : OpenSince Store.afterMoves "a" ([] ++ [.openScan "a" (.equality 5 .ascending)]) :=
    .opened ⟨_, _, rfl, rfl, opened⟩
  have first : (reached Store.afterMoves [.openScan "a" (.equality 5 .ascending)]).readers.get? "a"
      = some (.scan _) := get?_openScan opened
  have once : OpenSince Store.afterMoves "a"
      ([.openScan "a" (.equality 5 .ascending)] ++ [.pull "a"]) :=
    .kept opens (not_alters fun w => by simp) (not_drops_of_spares first trivial)
  obtain ⟨later, second⟩ : ∃ later, (reached Store.afterMoves
      ([.openScan "a" (.equality 5 .ascending)] ++ [.pull "a"])).readers.get? "a"
      = some (.scan later) := by
    rw [reached_concat, act, pull_scan first]
    exact ⟨_, by rw [get?_setReader, if_pos rfl]⟩
  have twice : OpenSince Store.afterMoves "a"
      ([.openScan "a" (.equality 5 .ascending), .pull "a"] ++ [.pull "a"]) :=
    .kept once (not_alters fun w => by simp) (not_drops_of_spares second trivial)
  refine ⟨Store.afterMoves_reachable, twice, ?_⟩
  exact (copy_accounting Store.afterMoves_reachable _).shared rfl _ trivial ⟨"a", twice⟩

end Session

end PagedIndex
