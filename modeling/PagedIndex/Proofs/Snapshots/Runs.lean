import Mathlib.Data.List.Induction
import PagedIndex.Proofs.Table
import PagedIndex.Proofs.Tree.Leaves
import PagedIndex.Snapshots

/-! Runs of writes to a tree while clones and copies of it are taken and dropped. What is kept under
a name stays as it was taken until something else is kept there or it is dropped, whatever is
written to the tree. No bucket has a revision that is yet to come, and the buckets of the tree have
none that a copy has.
-/

namespace PagedIndex.Snapshots

open Std

variable [Ord K]

/-- A step of a run. A clone or a copy is of what is kept under a name, or of the main tree. -/
inductive Action (K : Type u) (V : Type v) where
  | insert (key : K) (seq : Nat) (entry : Entry V)
  | erase (key : K) (record : RecordKey)
  | clone (source : Option String) (name : String)
  | copyRange (source : Option String) (d : Descriptor K) (name : String)
  | drop (name : String)

/-- What an action does. There is nothing to clone or to copy under a name that nothing is kept
under.
-/
def act (s : Snapshots K V) : Action K V → Snapshots K V
  | .insert key seq entry => (s.insert key seq entry).2
  | .erase key record => (s.erase key record).2
  | .clone source name =>
    match s.on? source with
    | some snapshot => s.keep name snapshot
    | none => s
  | .copyRange source d name =>
    match s.on? source with
    | some snapshot => s.keep name (.copy (snapshot.tree.restrictedTo d))
    | none => s
  | .drop name => (s.drop name).2

def run (s : Snapshots K V) (actions : List (Action K V)) : Snapshots K V := actions.foldl act s

/-- What a run leads to from an empty tree of which nothing is kept. -/
def reached (actions : List (Action K V)) : Snapshots K V := empty.run actions

/-- An action takes a snapshot and keeps it under a name. -/
def Takes (s : Snapshots K V) (name : String) (snapshot : Snapshot K V) (a : Action K V) : Prop :=
  (∃ source, a = .clone source name ∧ s.on? source = some snapshot)
  ∨ ∃ source d origin, a = .copyRange source d name ∧ s.on? source = some origin
      ∧ snapshot = .copy (origin.tree.restrictedTo d)

/-- What is kept under a name is dropped, or another snapshot is kept there in its place. -/
def Replaces (s : Snapshots K V) (name : String) (a : Action K V) : Prop :=
  a = .drop name ∨ ∃ snapshot, s.Takes name snapshot a

/-- No action of a run replaces what is kept under a name. -/
def Spared (s : Snapshots K V) (name : String) : List (Action K V) → Prop
  | [] => True
  | a :: rest => ¬s.Replaces name a ∧ (s.act a).Spared name rest

/-- An effective write under a key: an insertion, or an erasure of an entry that is there. -/
def Writes (s : Snapshots K V) (key : K) : Action K V → Prop
  | .insert k _ _ => compare key k = .eq
  | .erase k record => compare key k = .eq ∧ s.main.holds k record
  | _ => False

/-- No action of a run writes under a key. -/
def Untouched (s : Snapshots K V) (key : K) : List (Action K V) → Prop
  | [] => True
  | a :: rest => ¬s.Writes key a ∧ (s.act a).Untouched key rest

variable {s : Snapshots K V} {name : String} {a : Action K V} {actions : List (Action K V)}

@[simp] theorem run_nil (s : Snapshots K V) : s.run [] = s := rfl

@[simp] theorem run_cons (s : Snapshots K V) (a : Action K V) (rest : List (Action K V))
    : s.run (a :: rest) = (s.act a).run rest :=
  rfl

theorem run_append (s : Snapshots K V) (before after : List (Action K V))
    : s.run (before ++ after) = (s.run before).run after :=
  List.foldl_append

theorem reached_append (before after : List (Action K V))
    : reached (before ++ after) = (reached before).run after :=
  empty.run_append before after

theorem reached_concat (before : List (Action K V)) (a : Action K V)
    : reached (before ++ [a]) = (reached before).act a :=
  reached_append before [a]

theorem untouched_concat_iff {key : K} {after : List (Action K V)}
    : s.Untouched key (after ++ [a]) ↔ s.Untouched key after ∧ ¬(s.run after).Writes key a := by
  induction after generalizing s with
  | nil => simp [Untouched]
  | cons first rest ih =>
      rw [List.cons_append, Untouched, Untouched, ih, run_cons, and_assoc]

/-! ## What is kept -/

theorem act_of_takes {snapshot : Snapshot K V} (takes : s.Takes name snapshot a)
    : s.act a = s.keep name snapshot := by
  rcases takes with ⟨source, rfl, found⟩ | ⟨source, d, origin, rfl, found, rfl⟩ <;>
    simp only [act, found]

/-- An action keeps the snapshot that it takes, drops one, or leaves what is kept as it is. -/
theorem kept_act_cases (s : Snapshots K V) (a : Action K V)
    : (∃ name snapshot, s.Takes name snapshot a)
      ∨ (∃ name, a = .drop name)
      ∨ (s.act a).kept = s.kept := by
  cases a with
  | insert key seq entry => exact Or.inr (Or.inr rfl)
  | erase key record => exact Or.inr (Or.inr rfl)
  | clone source name =>
      cases found : s.on? source with
      | none => exact Or.inr (Or.inr (by simp only [act, found]))
      | some snapshot => exact Or.inl ⟨name, snapshot, Or.inl ⟨source, rfl, found⟩⟩
  | copyRange source d name =>
      cases found : s.on? source with
      | none => exact Or.inr (Or.inr (by simp only [act, found]))
      | some origin => exact Or.inl ⟨name, _, Or.inr ⟨source, d, origin, rfl, found, rfl⟩⟩
  | drop name => exact Or.inr (Or.inl ⟨name, rfl⟩)

/-- A snapshot that is taken is kept. -/
theorem get?_act_of_takes {snapshot : Snapshot K V} (takes : s.Takes name snapshot a)
    : (s.act a).kept.get? name = some snapshot := by
  rw [act_of_takes takes, keep, Table.get?_set, if_pos rfl]

/-- A name that is dropped has nothing under it. -/
theorem get?_act_drop (s : Snapshots K V) (name : String)
    : (s.act (.drop name)).kept.get? name = none := by
  rw [act, drop, Table.get?_erase, if_pos rfl]

/-- What is not replaced stays as it is. -/
theorem get?_act_of_spared (spared : ¬s.Replaces name a)
    : (s.act a).kept.get? name = s.kept.get? name := by
  rcases s.kept_act_cases a with ⟨other, snapshot, takes⟩ | ⟨other, rfl⟩ | same
  · have apart : name ≠ other := by
      rintro rfl
      exact spared (Or.inr ⟨snapshot, takes⟩)
    rw [act_of_takes takes, keep, Table.get?_set, if_neg apart]
  · have apart : name ≠ other := by
      rintro rfl
      exact spared (Or.inl rfl)
    rw [act, drop, Table.get?_erase, if_neg apart]
  · rw [same]

theorem get?_run_of_spared (spared : s.Spared name actions)
    : (s.run actions).kept.get? name = s.kept.get? name := by
  induction actions generalizing s with
  | nil => rfl
  | cons a rest ih => rw [run_cons, ih spared.2, get?_act_of_spared spared.1]

theorem keyed_act (keyed : s.kept.Keyed) (a : Action K V) : (s.act a).kept.Keyed := by
  rcases s.kept_act_cases a with ⟨name, snapshot, takes⟩ | ⟨name, rfl⟩ | same
  · rw [act_of_takes takes]
    exact keyed.set name snapshot
  · exact keyed.erase name
  · exact same ▸ keyed

theorem keyed_reached (actions : List (Action K V)) : (reached actions).kept.Keyed := by
  induction actions using List.reverseRecOn with
  | nil => exact Table.keyed_empty
  | append_singleton before a ih =>
      rw [reached_concat]
      exact keyed_act ih a

/-! ## Revisions -/

/-- The main tree is in order and no private copy, and neither there nor in a kept tree a bucket has
a revision that is yet to come.
-/
structure Dated (s : Snapshots K V) : Prop where
  sorted : s.main.leaves.Pairwise fun a b => compare a.key b.key = .lt
  numbered : s.main.Numbered
  main : s.main.Dated s.main.version
  kept
    : ∀ name snapshot, s.kept.get? name = some snapshot → snapshot.tree.Dated s.main.version

theorem dated_empty : (empty : Snapshots K V).Dated where
  sorted := .nil
  numbered := Tree.numbered_empty
  main := Tree.dated_empty _
  kept name snapshot found := by simp [empty] at found

/-- A tree that is the main tree or is kept has no revision that is yet to come. -/
theorem Dated.on? (h : s.Dated) {source : Option String} {snapshot : Snapshot K V}
    (found : s.on? source = some snapshot)
    : snapshot.tree.Dated s.main.version := by
  cases source with
  | none =>
      obtain rfl := Option.some.inj found
      exact h.main
  | some name => exact h.kept name snapshot found

theorem Dated.keep (h : s.Dated) (name : String) {snapshot : Snapshot K V}
    (dated : snapshot.tree.Dated s.main.version)
    : (s.keep name snapshot).Dated where
  sorted := h.sorted
  numbered := h.numbered
  main := h.main
  kept other earlier found := by
    rw [Snapshots.keep, Table.get?_set] at found
    split at found
    · exact Option.some.inj found ▸ dated
    · exact h.kept other earlier found

variable [TransOrd K]

theorem Dated.act (h : s.Dated) (a : Action K V) : (s.act a).Dated := by
  -- Only writes give out revisions, and they raise the version of the main tree to the new one.
  cases a with
  | insert key seq entry =>
      exact
        { sorted := Tree.sorted_insertLeaf h.sorted key seq entry _
          numbered := h.numbered.insert key seq entry
          main := h.main.insert h.sorted key seq entry
          kept := fun name snapshot found => (h.kept name snapshot found).mono (Nat.le_succ _) }
  | erase key record =>
      exact
        { sorted := Tree.sorted_erase h.sorted key record
          numbered := h.numbered.erase key record
          main := h.main.erase h.sorted key record
          kept := fun name snapshot found =>
            (h.kept name snapshot found).mono (s.main.version_le_erase key record) }
  | clone source name =>
      simp only [Snapshots.act]
      split
      next found => exact h.keep name (h.on? found)
      next => exact h
  | copyRange source d name =>
      simp only [Snapshots.act]
      split
      · exact h.keep name ((Tree.private_restrictedTo _ d).dated _)
      · exact h
  | drop name =>
      refine ⟨h.sorted, h.numbered, h.main, fun other snapshot found => ?_⟩
      rw [Snapshots.act, Snapshots.drop, Table.get?_erase] at found
      split at found
      · contradiction
      · exact h.kept other snapshot found

theorem dated_reached (actions : List (Action K V)) : (reached actions).Dated := by
  induction actions using List.reverseRecOn with
  | nil => exact dated_empty
  | append_singleton before a ih =>
      rw [reached_concat]
      exact ih.act a

end PagedIndex.Snapshots
