import PagedIndex.Proofs.Snapshots.Runs

/-! What writes copy. A bucket is shared just while a clone is kept that derives from the main tree
as it was when it had the bucket and since when nothing has been written under its key. So whether a
write copies the bucket it finds depends on the history of the run alone.
-/

namespace PagedIndex.Snapshots

open Std

variable [Ord K] {s : Snapshots K V} {key : K} {name : String} {a : Action K V}
  {actions : List (Action K V)}

/-- Under a name a tree is kept that shares the bucket of a key with the main tree. -/
def Shares (s : Snapshots K V) (key : K) (name : String) : Prop :=
  ∃ snapshot, s.kept.get? name = some snapshot ∧ s.main.sharesBucket snapshot.tree key = true

omit [Ord K] in
theorem mem_trees_holdings_iff (keyed : s.kept.Keyed) {t : Tree K V}
    : t ∈ s.holdings.trees
      ↔ ∃ name snapshot, s.kept.get? name = some snapshot ∧ snapshot.tree = t := by
  simp only [holdings, Table.values, List.mem_map, keyed.get?_eq_some_iff]
  constructor
  · rintro ⟨snapshot, ⟨⟨name, snapshot⟩, member, rfl⟩, same⟩
    exact ⟨name, snapshot, member, same⟩
  · rintro ⟨name, snapshot, member, same⟩
    exact ⟨snapshot, ⟨_, member, rfl⟩, same⟩

/-- The bucket that a write finds is held by the kept trees that share it. -/
theorem holdsBucket_iff (keyed : s.kept.Keyed)
    : s.holdings.holdsBucket s.main key = true ↔ ∃ name, s.Shares key name := by
  have alone : (s.main.leaf? key).any (fun leaf => s.holdings.revisions.contains leaf.revision)
      = false := by
    cases s.main.leaf? key <;> rfl
  rw [Holdings.holdsBucket, alone, Bool.false_or, List.any_eq_true]
  simp only [mem_trees_holdings_iff keyed, Shares]
  constructor
  · rintro ⟨_, ⟨name, snapshot, kept, rfl⟩, shared⟩
    exact ⟨name, snapshot, kept, shared⟩
  · rintro ⟨name, snapshot, kept, shared⟩
    exact ⟨_, ⟨name, snapshot, kept, rfl⟩, shared⟩

/-! ## One action -/

/-- Only writes change the main tree. -/
theorem main_act (s : Snapshots K V) (a : Action K V)
    : (s.act a).main = match a with
      | .insert key seq entry => s.main.insert key seq entry
      | .erase key record => s.main.erase key record
      | _ => s.main := by
  cases a with
  | insert key seq entry => rfl
  | erase key record => rfl
  | clone source name =>
      simp only [act]
      split <;> rfl
  | copyRange source d name =>
      simp only [act]
      split <;> rfl
  | drop name => rfl

/-- A snapshot that has just been taken shares what its tree does. -/
theorem shares_act_of_takes {snapshot : Snapshot K V} (takes : s.Takes name snapshot a)
    : (s.act a).Shares key name ↔ s.main.sharesBucket snapshot.tree key = true := by
  have same : (s.act a).main = s.main := by rw [act_of_takes takes, keep]
  simp only [Shares, get?_act_of_takes takes, same, Option.some.injEq, exists_eq_left']

variable [TransOrd K]

theorem leaf?_act_of_not_writes (h : s.Dated) (unwritten : ¬s.Writes key a)
    : (s.act a).main.leaf? key = s.main.leaf? key := by
  rw [main_act]
  split
  next k seq entry =>
    rw [Tree.leaf?_insert h.sorted]
    exact if_neg unwritten
  next k record =>
    rw [Tree.leaf?_erase h.sorted]
    exact if_neg unwritten
  next => rfl

/-- After a write under a key nothing shares the bucket there. -/
theorem not_shares_act_of_writes (h : s.Dated) (writes : s.Writes key a)
    : ¬(s.act a).Shares key name := by
  rintro ⟨snapshot, kept, shared⟩
  cases a with
  | insert k seq entry =>
      have dated := h.kept name snapshot kept
      have apart := Tree.not_sharesBucket_insert dated h.sorted writes seq entry
      exact Bool.eq_false_iff.mp apart shared
  | erase k record =>
      have dated := h.kept name snapshot kept
      have apart := Tree.not_sharesBucket_erase dated h.sorted writes.1 writes.2
      exact Bool.eq_false_iff.mp apart shared
  | _ => exact writes

theorem shares_act_of_spared (h : s.Dated) (unwritten : ¬s.Writes key a)
    (spared : ¬s.Replaces name a)
    : (s.act a).Shares key name ↔ s.Shares key name := by
  simp only [Shares, get?_act_of_spared spared,
    Tree.sharesBucket_congr (leaf?_act_of_not_writes h unwritten)]

/-- A kept tree shares the bucket of a key after an action if it has just been cloned, from the main
tree that has the key or from a kept tree that shares the bucket, or if it shared the bucket before
and neither the bucket was written to nor the tree replaced. A copy that has just been made shares
nothing, since its buckets have the revision of no write.
-/
theorem shares_act_iff (h : s.Dated)
    : (s.act a).Shares key name
      ↔ (a = .clone none name ∧ (s.main.leaf? key).isSome)
        ∨ (∃ source, a = .clone (some source) name ∧ s.Shares key source)
        ∨ (s.Shares key name ∧ ¬s.Writes key a ∧ ¬s.Replaces name a) := by
  by_cases taking : ∃ snapshot, s.Takes name snapshot a
  · -- What was under the name before does not matter.
    obtain ⟨snapshot, takes⟩ := taking
    have replaced : s.Replaces name a := Or.inr ⟨snapshot, takes⟩
    rw [shares_act_of_takes takes]
    simp only [replaced, not_true, and_false, or_false]
    rcases takes with ⟨source, rfl, found⟩ | ⟨source, d, origin, rfl, found, rfl⟩
    · cases source with
      | none =>
          obtain rfl := Option.some.inj found
          simp [Snapshot.tree, Tree.sharesBucket_self]
      | some source =>
          change s.kept.get? source = some snapshot at found
          simp [Shares, found]
    · have apart := h.numbered.not_sharesBucket (Tree.private_restrictedTo origin.tree d) key
      change s.main.sharesBucket (origin.tree.restrictedTo d) key = true ↔ _
      simp [apart]
  · have notCloned : ¬(a = .clone none name ∧ (s.main.leaf? key).isSome) := by
      rintro ⟨clones, _⟩
      exact taking ⟨_, Or.inl ⟨none, clones, rfl⟩⟩
    have notAgain : ¬∃ source, a = .clone (some source) name ∧ s.Shares key source := by
      rintro ⟨source, clones, t, kept, _⟩
      exact taking ⟨_, Or.inl ⟨some source, clones, kept⟩⟩
    rw [or_iff_right notCloned, or_iff_right notAgain]
    by_cases replaced : s.Replaces name a
    · obtain rfl : a = .drop name := replaced.resolve_right taking
      simp [Shares, get?_act_drop, replaced]
    by_cases writes : s.Writes key a
    · exact iff_of_false (not_shares_act_of_writes h writes) fun both => both.2.1 writes
    · rw [shares_act_of_spared h writes replaced]
      exact ⟨fun shares => ⟨shares, writes, replaced⟩, fun both => both.1⟩

/-! ## Whole runs -/

/-- After a run that began when the main tree was as some run had left it, the snapshot under a name
is a clone of that tree, or of such a clone.
-/
inductive Derives (before : List (Action K V)) : String → List (Action K V) → Prop
  | cloned (name : String) : Derives before name [.clone none name]
  | again {source : String} {after : List (Action K V)} (origin : Derives before source after)
      (name : String)
    : Derives before name (after ++ [.clone (some source) name])
  | kept {name : String} {after : List (Action K V)} (origin : Derives before name after)
      {a : Action K V} (spared : ¬(reached (before ++ after)).Replaces name a)
    : Derives before name (after ++ [a])

/-- In a run a clone was taken of the main tree with a key and nothing has been written under the
key since, and what is kept under a name derives from this clone.
-/
def SharedSince (key : K) (name : String) (actions : List (Action K V)) : Prop :=
  ∃ before after, actions = before ++ after ∧ Derives before name after
    ∧ ((reached before).main.leaf? key).isSome ∧ (reached before).Untouched key after

omit [TransOrd K] in
theorem sharedSince_concat_iff
    : SharedSince key name (actions ++ [a])
      ↔ (a = .clone none name ∧ ((reached actions).main.leaf? key).isSome)
        ∨ (∃ source, a = .clone (some source) name ∧ SharedSince key source actions)
        ∨ (SharedSince key name actions ∧ ¬(reached actions).Writes key a
          ∧ ¬(reached actions).Replaces name a) := by
  constructor
  · -- How the name derives from the clone says what the last action was.
    rintro ⟨before, after, whole, derives, there, untouched⟩
    cases derives with
    | cloned =>
        obtain ⟨rfl, same⟩ := List.append_inj' whole rfl
        obtain rfl := List.singleton_inj.mp same
        exact Or.inl ⟨rfl, there⟩
    | again origin =>
        rw [← List.append_assoc] at whole
        obtain ⟨rfl, same⟩ := List.append_inj' whole rfl
        obtain rfl := List.singleton_inj.mp same
        have earlier := (untouched_concat_iff.mp untouched).1
        exact Or.inr (Or.inl ⟨_, rfl, before, _, rfl, origin, there, earlier⟩)
    | kept origin spared =>
        rw [← List.append_assoc] at whole
        obtain ⟨rfl, same⟩ := List.append_inj' whole rfl
        obtain rfl := List.singleton_inj.mp same
        obtain ⟨earlier, unwritten⟩ := untouched_concat_iff.mp untouched
        rw [← reached_append] at unwritten
        exact Or.inr (Or.inr ⟨⟨before, _, rfl, origin, there, earlier⟩, unwritten, spared⟩)
  · rintro (⟨rfl, there⟩ | ⟨source, rfl, before, after, rfl, origin, there, untouched⟩
      | ⟨⟨before, after, rfl, origin, there, untouched⟩, unwritten, spared⟩)
    · exact ⟨actions, _, rfl, .cloned name, there, fun writes => writes, trivial⟩
    · refine ⟨before, _, List.append_assoc _ _ _, origin.again name, there, ?_⟩
      exact untouched_concat_iff.mpr ⟨untouched, fun writes => writes⟩
    · refine ⟨before, _, List.append_assoc _ _ _, origin.kept spared, there, ?_⟩
      rw [reached_append] at unwritten
      exact untouched_concat_iff.mpr ⟨untouched, unwritten⟩

omit [TransOrd K] in
theorem not_sharedSince_nil : ¬SharedSince key name ([] : List (Action K V)) := by
  rintro ⟨before, after, whole, derives, _⟩
  obtain ⟨_, rfl⟩ := List.append_eq_nil_iff.mp whole.symm
  generalize none : ([] : List (Action K V)) = after at derives
  cases derives <;> simp at none

/-- A kept tree shares a bucket just if it has been shared since, by induction from the end of the
run.
-/
theorem shares_reached_iff
    : (reached actions).Shares key name ↔ SharedSince key name actions := by
  induction actions using List.reverseRecOn generalizing name with
  | nil =>
      refine iff_of_false ?_ not_sharedSince_nil
      rintro ⟨snapshot, kept, _⟩
      simp [reached, empty] at kept
  | append_singleton before a ih =>
      rw [reached_concat, sharedSince_concat_iff, shares_act_iff (dated_reached before)]
      simp only [ih]

theorem holdsBucket_reached_iff (key : K) (actions : List (Action K V))
    : (reached actions).holdings.holdsBucket (reached actions).main key = true
      ↔ ∃ name, SharedSince key name actions := by
  simp only [holdsBucket_iff (keyed_reached actions), shares_reached_iff]

/-- The accounts of a run and of what may follow it. -/
structure SharingAccounts (actions : List (Action K V)) : Prop where
  /-- An insertion copies the bucket of its key just if it has been shared since. -/
  inserted
    : ∀ key seq entry, ((reached actions).insert key seq entry).1.2 = true
        ↔ ∃ name, SharedSince key name actions
  /-- So does an erasure of an entry that is there. -/
  erased
    : ∀ key record, (reached actions).main.holds key record = true
        → ∃ seq copied, ((reached actions).erase key record).1 = some (seq, copied)
            ∧ (copied = true ↔ ∃ name, SharedSince key name actions)
  /-- An erasure of any other entry changes nothing. -/
  absent
    : ∀ key record, (reached actions).main.holds key record = false
        → (reached actions).erase key record = (none, reached actions)
  /-- After a range has been copied an insertion copies no bucket that it would not have copied. -/
  copied
    : ∀ source d name key seq entry,
        ((reached (actions ++ [.copyRange source d name])).insert key seq entry).1.2 = true
          → ((reached actions).insert key seq entry).1.2 = true
  /-- A clone or a copy stays as it was taken. -/
  kept
    : ∀ before a after name snapshot, actions = before ++ a :: after
        → (reached before).Takes name snapshot a → ((reached before).act a).Spared name after
        → (reached actions).kept.get? name = some snapshot

/-- Every run keeps these accounts. -/
theorem sharing_accounts (actions : List (Action K V)) : SharingAccounts actions where
  inserted key seq entry := holdsBucket_reached_iff key actions
  erased key record held := by
    rw [Tree.holds_eq] at held
    obtain ⟨slot, found⟩ := Option.isSome_iff_exists.mp held
    refine ⟨slot.seq, _, ?_, holdsBucket_reached_iff key actions⟩
    simp only [erase, Tree.seqOf?_eq, found, Option.map_some]
  absent key record absent := by
    have nothing : (reached actions).main.seqOf? key record = none := by
      rw [Tree.holds_eq] at absent
      rw [Tree.seqOf?_eq, Option.map_eq_none_iff]
      simpa using absent
    simp only [erase, nothing, Option.map_none, Tree.erase, absent, Bool.false_eq_true, if_false]
  copied source d name key seq entry shared := by
    obtain ⟨other, since⟩ := (holdsBucket_reached_iff key _).mp shared
    -- The copy is no clone, so whatever shares the bucket now has shared it before.
    rcases sharedSince_concat_iff.mp since with ⟨clones, _⟩ | ⟨_, clones, _⟩ | ⟨earlier, _⟩
    · contradiction
    · contradiction
    · exact (holdsBucket_reached_iff key actions).mpr ⟨other, earlier⟩
  kept before a after name snapshot whole takes spared := by
    rw [whole, reached_append, run_cons, get?_run_of_spared spared, get?_act_of_takes takes]

/-- A clone of a clone stays, and shares a bucket, when the clone it was taken of is dropped. -/
theorem derived_clone_shares
    : ((reached [.insert 5 1 ⟨⟨[1]⟩, "a"⟩, .clone none "p", .clone (some "p") "q", .drop "p"]
          : Snapshots Nat String).insert 5 2 ⟨⟨[2]⟩, "b"⟩).1.2 = true
      ∧ (reached [.insert 5 1 ⟨⟨[1]⟩, "a"⟩, .clone none "p", .clone (some "p") "q", .drop "p"]
          : Snapshots Nat String).kept.get? "q"
        = some (.version (reached [.insert 5 1 ⟨⟨[1]⟩, "a"⟩]).main) := by
  constructor
  · refine ((sharing_accounts _).inserted _ _ _).mpr
      ⟨"q", [.insert 5 1 ⟨⟨[1]⟩, "a"⟩], _, rfl, ?_, ?_, ?_⟩
    · exact ((Derives.cloned "p").again "q").kept (by simp [Replaces, Takes])
    · rfl
    · simp [Untouched, Writes]
  · refine (sharing_accounts _).kept [.insert 5 1 ⟨⟨[1]⟩, "a"⟩, .clone none "p"] _ [.drop "p"] _ _ rfl
      (Or.inl ⟨some "p", rfl, rfl⟩) ⟨?_, trivial⟩
    simp [Replaces, Takes]

end PagedIndex.Snapshots
