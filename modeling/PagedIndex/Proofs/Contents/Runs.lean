import PagedIndex.Proofs.Contents.Coherence

/-! Runs of writes keep an index coherent. In coherent contents the plan of a write has one of five
shapes, and each shape consists of changes that keep the contents coherent on the way. A removal
misses only where a removal was asked for: a record that has to make way is where the locator has
it.
-/

namespace PagedIndex.Contents

open Std

variable [Ord K] {c : Contents K V}

/-- The plans that writes to some contents have. -/
inductive PlanShape (c : Contents K V) : List (Change K V) → Prop
  | nothing : PlanShape c []
  | miss {key record} (absent : ¬c.tree.holds key record) : PlanShape c [.miss key record]
  | unlink {key record} (held : c.tree.holds key record) : PlanShape c [.unlink key record]
  | link {key entry} (settled : c.SettledAt key entry.record) : PlanShape c [.link key entry]
  | move {oldKey key} {entry : Entry V} (held : c.tree.holds oldKey entry.record)
    : PlanShape c [.unlink oldKey entry.record, .link key entry]

/-- Once unlinked, a record is settled wherever it goes. -/
theorem settledAt_unlink (c : Contents K V) (oldKey key : K) (record : RecordKey)
    : (c.apply (.unlink oldKey record)).SettledAt key record := by
  intro p live
  simp [apply, Locator.live?_retire] at live

namespace Coherent

/-- The plan of an insertion: a link alone if the record is settled, else it moves there. -/
theorem insertion_cases [OrientedOrd K] (h : c.Coherent) (key : K) (entry : Entry V)
    : (c.SettledAt key entry.record ∧ c.insertion key entry = [.link key entry])
      ∨ ∃ p, c.locator.live? entry.record = some p ∧ compare key p.key ≠ .eq
          ∧ c.tree.holds p.key entry.record
          ∧ c.insertion key entry = [.unlink p.key entry.record, .link key entry] := by
  unfold insertion
  cases live : c.locator.live? entry.record with
  | none => exact Or.inl ⟨fun p found => by simp [live] at found, rfl⟩
  | some p =>
      simp only
      by_cases here : compare key p.key = .eq
      · refine Or.inl ⟨fun q found => ?_, ?_⟩
        · obtain rfl := Option.some.inj (live.symm.trans found)
          exact here
        · simp [OrientedCmp.eq_symm here]
      · have held : c.tree.holds p.key entry.record := by
          have inTree := (h.located entry.record p.key p.seq).mp
            ⟨p, live, ReflCmp.compare_self, rfl⟩
          rw [Tree.seqOf?_eq] at inTree
          rw [Tree.holds_eq, ← Option.isSome_map, inTree, Option.isSome_some]
        have apart : (compare p.key key).isEq = false := by
          simpa using fun near => here (OrientedCmp.eq_symm near)
        exact Or.inr ⟨p, rfl, here, held, by simp [apart, removal, held]⟩

/-- The plan of an update: a move from the old key, or the plan of an insertion. -/
theorem relocation_cases (c : Contents K V) (oldKey newKey : K) (entry : Entry V)
    : (c.tree.holds oldKey entry.record
        ∧ c.relocation oldKey newKey entry
          = [.unlink oldKey entry.record, .link newKey entry])
      ∨ (¬ c.tree.holds oldKey entry.record
        ∧ c.relocation oldKey newKey entry = c.insertion newKey entry) := by
  by_cases held : c.tree.holds oldKey entry.record
  · refine Or.inl ⟨held, ?_⟩
    have gone : (c.apply (.unlink oldKey entry.record)).locator.live? entry.record = none := by
      simp [apply, Locator.live?_retire]
    simp [relocation, removal, held, applyAll, insertion, gone]
  · exact Or.inr ⟨held, by simp [relocation, held, applyAll]⟩

variable [TransOrd K]

theorem planShape (h : c.Coherent) (w : Write K V) : c.PlanShape (c.plan w) := by
  have insertion (key : K) (entry : Entry V) : c.PlanShape (c.insertion key entry) := by
    rcases h.insertion_cases key entry with ⟨settled, plan⟩ | ⟨p, _, _, held, plan⟩
    · exact plan ▸ .link settled
    · exact plan ▸ .move held
  cases w with
  | insert key entry => exact insertion key entry
  | remove key record =>
      change c.PlanShape (c.removal key record)
      unfold removal
      split
      next held => exact .unlink held
      next absent => exact .miss absent
  | update oldKey newKey entry =>
      change c.PlanShape (c.relocation oldKey newKey entry)
      rcases relocation_cases c oldKey newKey entry with ⟨held, plan⟩ | ⟨_, plan⟩
      · exact plan ▸ .move held
      · exact plan ▸ insertion newKey entry
  | clear => exact .nothing

theorem applyAll (h : c.Coherent) {changes : List (Change K V)} (shape : c.PlanShape changes)
    : (c.applyAll changes).Coherent := by
  cases shape with
  | nothing => exact h
  | miss _ => exact h
  | unlink held => exact h.unlink held
  | link settled => exact h.link settled
  | move held => exact (h.unlink held).link (c.settledAt_unlink _ _ _)

theorem perform (h : c.Coherent) (w : Write K V) : (c.perform w).Coherent := by
  rw [perform_eq]
  split
  · exact c.coherent_cleared
  · exact h.applyAll (h.planShape w)

/-- A run of writes keeps the contents coherent, by induction over the run. -/
theorem performAll (h : c.Coherent) (writes : List (Write K V))
    : (c.performAll writes).Coherent := by
  induction writes generalizing c with
  | nil => exact h
  | cons w rest ih => exact ih (h.perform w)

end Coherent

/-! ## Numbers rise along buckets -/

/-- An entry is appended under a number above the last one of its bucket. -/
def AppendsLast (c : Contents K V) : Change K V → Prop
  | .link key _ =>
      ∀ bucket, c.tree.bucket? key = some bucket
        → ∀ slot ∈ bucket.slots.getLast?, slot.seq < c.lastSeq + 1
  | .unlink _ _ | .miss _ _ => True

/-- Every change of a plan, made in its turn, appends above the last number. -/
def AppendsInOrder (c : Contents K V) : List (Change K V) → Prop
  | [] => True
  | change :: rest => c.AppendsLast change ∧ (c.apply change).AppendsInOrder rest

namespace Coherent

variable [TransOrd K]

theorem appendsLast (h : c.Coherent) (change : Change K V) : c.AppendsLast change := by
  cases change with
  | unlink key record => trivial
  | miss key record => trivial
  | link key entry =>
      intro bucket found slot last
      obtain ⟨leaf, leafFound, rfl⟩ := Option.map_eq_some_iff.mp found
      have member := List.mem_of_getLast? (Option.mem_def.mp last)
      have inTree : slot ∈ c.tree.slots :=
        List.mem_flatMap.mpr ⟨leaf, List.mem_of_find?_eq_some leafFound, member⟩
      exact Nat.lt_succ_of_le (h.seq_le inTree)

theorem appendsInOrder (h : c.Coherent) {changes : List (Change K V)}
    (shape : c.PlanShape changes)
    : c.AppendsInOrder changes := by
  cases shape with
  | nothing => trivial
  | miss _ => exact ⟨trivial, trivial⟩
  | unlink held => exact ⟨trivial, trivial⟩
  | link settled => exact ⟨h.appendsLast _, trivial⟩
  | move held => exact ⟨trivial, (h.unlink held).appendsLast _, trivial⟩

/-! ## Counting -/

/-- No record has two slots in the whole tree, since its position names one leaf. -/
theorem single (h : c.Coherent) : (c.tree.slots.map (·.entry.record)).Nodup := by
  rw [List.Nodup, List.pairwise_map, Tree.slots, List.pairwise_flatMap]
  refine ⟨fun leaf found => List.pairwise_map.mp (h.tree.buckets leaf found).single, ?_⟩
  -- One record in two leaves would live at both their keys.
  refine h.tree.sorted.imp_of_mem fun {a b} left right order x there y below same => ?_
  obtain ⟨p, live, nearA, _⟩ := h.live_of_slot? (h.tree.slot?_of_mem left there)
  obtain ⟨q, again, nearB, _⟩ := h.live_of_slot? (h.tree.slot?_of_mem right below)
  rw [same, again] at live
  obtain rfl := Option.some.inj live
  simp [TransCmp.eq_trans nearA (OrientedCmp.eq_symm nearB)] at order

/-- The records in the tree are the live ones. -/
theorem mem_records_iff (h : c.Coherent) (record : RecordKey)
    : record ∈ c.tree.slots.map (·.entry.record) ↔ (c.locator.live? record).isSome := by
  constructor
  · intro member
    obtain ⟨slot, inTree, rfl⟩ := List.mem_map.mp member
    obtain ⟨leaf, found, there⟩ := List.mem_flatMap.mp inTree
    obtain ⟨p, live, _⟩ := h.live_of_slot? (h.tree.slot?_of_mem found there)
    rw [live, Option.isSome_some]
  · intro live
    obtain ⟨p, live⟩ := Option.isSome_iff_exists.mp live
    have inTree := (h.located record p.key p.seq).mp ⟨p, live, ReflCmp.compare_self, rfl⟩
    rw [Tree.seqOf?_eq] at inTree
    obtain ⟨slot, found, _⟩ := Option.map_eq_some_iff.mp inTree
    obtain ⟨leaf, leafFound, _, there, own⟩ := h.tree.slot?_eq_some_iff.mp found
    exact List.mem_map.mpr ⟨slot, List.mem_flatMap.mpr ⟨leaf, leafFound, there⟩, own⟩

/-- There are as many live records as slots, as both list the same records once each. -/
theorem size_eq_live (h : c.Coherent) : c.tree.size = c.locator.live.size := by
  have same : (c.tree.slots.map (·.entry.record)).Perm (c.locator.live.pairs.map (·.1)) := by
    refine (List.perm_ext_iff_of_nodup h.single h.keyed).mpr fun record => ?_
    rw [h.mem_records_iff, Option.isSome_iff_exists, List.mem_map]
    constructor
    · rintro ⟨p, live⟩
      exact ⟨(record, p), h.keyed.get?_eq_some_iff.mp live, rfl⟩
    · rintro ⟨⟨_, p⟩, member, rfl⟩
      exact ⟨p, h.keyed.get?_eq_some_iff.mpr member⟩
  have lengths := same.length_eq
  rw [List.length_map, List.length_map] at lengths
  rw [h.tree.size_eq, lengths, Table.size]

end Coherent

end PagedIndex.Contents
