import PagedIndex.Proofs.Contents.Writes
import PagedIndex.Proofs.Locator.Positions
import PagedIndex.Proofs.Tree.Order

/-! Tree, locator and counter of an index stay coherent. A change links or unlinks one record in
tree and locator alike; the plan of every write consists of such changes, so whole runs of writes
keep the three together.
-/

namespace PagedIndex.Contents

open Std

/-- How tree, locator and counter of an index fit together. -/
structure Coherent [Ord K] (c : Contents K V) : Prop where
  tree : c.tree.Ordered
  keyed : c.locator.live.Keyed
  /-- A record lives at a position if and only if the bucket there holds it under that number. -/
  located
    : ∀ record key seq,
        (∃ p, c.locator.live? record = some p ∧ compare key p.key = .eq ∧ p.seq = seq)
        ↔ c.tree.seqOf? key record = some seq
  /-- No two live records have the same number. -/
  distinct
    : ∀ a b p q, c.locator.live? a = some p → c.locator.live? b = some q → p.seq = q.seq → a = b
  /-- No live record has the number of a retired one. -/
  apart
    : ∀ a b p r, c.locator.live? a = some p → c.locator.retired.get? b = some r
        → p.seq ≠ r.position.seq
  /-- The numbers of live and retired records have been given out. -/
  liveBound : ∀ record p, c.locator.live? record = some p → p.seq ≤ c.lastSeq
  retiredBound
    : ∀ record r, c.locator.retired.get? record = some r → r.position.seq ≤ c.lastSeq
  /-- A live record is not retired. -/
  notBoth : ∀ record p, c.locator.live? record = some p → c.locator.retired.get? record = none

/-- A record lives nowhere or under a key already. -/
def SettledAt [Ord K] (c : Contents K V) (key : K) (record : RecordKey) : Prop :=
  ∀ p, c.locator.live? record = some p → compare key p.key = .eq

variable [Ord K] {c : Contents K V}

theorem coherent_empty (retiredCapacity : Nat)
    : (empty retiredCapacity : Contents K V).Coherent where
  tree := Tree.ordered_nil 1
  keyed := Table.keyed_empty
  located := by simp [empty, Tree.seqOf?_eq, Tree.empty, Tree.slot?]
  distinct := by simp [empty]
  apart := by simp [empty]
  liveBound := by simp [empty]
  retiredBound := by simp [empty, Locator.empty]
  notBoth := by simp [empty]

theorem coherent_cleared (c : Contents K V) : c.cleared.Coherent where
  tree := Tree.ordered_nil _
  keyed := Table.keyed_empty
  located := by simp [cleared, Tree.seqOf?_eq, Tree.cleared, Tree.slot?]
  distinct := by simp [cleared]
  apart := by simp [cleared]
  liveBound := by simp [cleared]
  retiredBound := by simp [cleared, Locator.cleared]
  notBoth := by simp [cleared]

namespace Coherent

theorem live_of_slot? (h : c.Coherent) {key : K} {record : RecordKey} {slot : Slot V}
    (found : c.tree.slot? key record = some slot)
    : ∃ p, c.locator.live? record = some p ∧ compare key p.key = .eq ∧ p.seq = slot.seq := by
  rw [h.located, Tree.seqOf?_eq, found, Option.map_some]

theorem live_of_holds (h : c.Coherent) {key : K} {record : RecordKey}
    (held : c.tree.holds key record)
    : ∃ p, c.locator.live? record = some p ∧ compare key p.key = .eq := by
  rw [Tree.holds_eq] at held
  obtain ⟨slot, found⟩ := Option.isSome_iff_exists.mp held
  obtain ⟨p, live, here, _⟩ := h.live_of_slot? found
  exact ⟨p, live, here⟩

/-- A linked record keeps the number it has, or gets the next one if it was not live. -/
theorem placedSeq_cases (h : c.Coherent) {key : K} {record : RecordKey}
    (settled : c.SettledAt key record)
    : (∃ p, c.locator.live? record = some p
          ∧ c.tree.placedSeq key (c.lastSeq + 1) record = p.seq)
      ∨ (c.locator.live? record = none
          ∧ c.tree.placedSeq key (c.lastSeq + 1) record = c.lastSeq + 1) := by
  rw [Tree.placedSeq]
  cases live : c.locator.live? record with
  | some p =>
      have inTree := (h.located record key p.seq).mp ⟨p, live, settled p live, rfl⟩
      exact Or.inl ⟨p, rfl, by rw [inTree, Option.getD_some]⟩
  | none =>
      have absent : c.tree.seqOf? key record = none := by
        refine Option.eq_none_iff_forall_ne_some.mpr fun seq found => ?_
        obtain ⟨p, found, _⟩ := (h.located record key seq).mpr found
        simp [live] at found
      exact Or.inr ⟨rfl, by rw [absent, Option.getD_none]⟩

/-- No other live record has the number that a linked record gets. -/
theorem eq_of_seq_eq_placedSeq (h : c.Coherent) {key : K} {record other : RecordKey}
    {q : Position K} (settled : c.SettledAt key record) (live : c.locator.live? other = some q)
    (same : q.seq = c.tree.placedSeq key (c.lastSeq + 1) record)
    : other = record := by
  rcases h.placedSeq_cases settled with ⟨p, old, kept⟩ | ⟨_, fresh⟩
  · exact h.distinct other record q p live old (same.trans kept)
  · have := h.liveBound other q live
    omega

/-- No retired record has it. -/
theorem placedSeq_ne_retired (h : c.Coherent) {key : K} {record other : RecordKey}
    {r : Retirement K} (settled : c.SettledAt key record)
    (retired : c.locator.retired.get? other = some r)
    : c.tree.placedSeq key (c.lastSeq + 1) record ≠ r.position.seq := by
  rcases h.placedSeq_cases settled with ⟨p, old, kept⟩ | ⟨_, fresh⟩
  · rw [kept]
    exact h.apart record other p r old retired
  · have := h.retiredBound other r retired
    omega

/-- It has been given out by then. -/
theorem placedSeq_le (h : c.Coherent) {key : K} {record : RecordKey}
    (settled : c.SettledAt key record)
    : c.tree.placedSeq key (c.lastSeq + 1) record ≤ c.lastSeq + 1 := by
  rcases h.placedSeq_cases settled with ⟨p, old, kept⟩ | ⟨_, fresh⟩
  · have := h.liveBound record p old
    omega
  · exact Nat.le_of_eq fresh

variable [TransOrd K]

/-- The numbers in the tree have been given out. -/
theorem seq_le (h : c.Coherent) {slot : Slot V} (member : slot ∈ c.tree.slots)
    : slot.seq ≤ c.lastSeq := by
  obtain ⟨leaf, found, there⟩ := List.mem_flatMap.mp member
  obtain ⟨p, live, _, same⟩ := h.live_of_slot? (h.tree.slot?_of_mem found there)
  exact same ▸ h.liveBound _ p live

/-! ## Linking -/

/-- After linking a record, the tree still has every record where the locator has it. -/
theorem located_link (h : c.Coherent) {key : K} {entry : Entry V}
    (settled : c.SettledAt key entry.record) (record : RecordKey) (k : K) (seq : Nat)
    : (∃ p, (c.apply (.link key entry)).locator.live? record = some p ∧ compare k p.key = .eq
          ∧ p.seq = seq)
      ↔ (c.apply (.link key entry)).tree.seqOf? k record = some seq := by
  simp only [apply, Locator.live?_place, Tree.seqOf?_eq, Tree.slot?_insert h.tree.sorted]
  by_cases same : record = entry.record
  · subst same
    by_cases here : compare k key = .eq
    · simp [here]
    · -- The record is under no other key, since it is settled under this one.
      have absent : c.tree.slot? k entry.record = none := by
        refine Option.eq_none_iff_forall_ne_some.mpr fun slot found => here ?_
        obtain ⟨p, live, there, _⟩ := h.live_of_slot? found
        exact TransCmp.eq_trans there (OrientedCmp.eq_symm (settled p live))
      simp [here, absent]
  · simpa [same, Tree.seqOf?_eq] using h.located record k seq

/-- Linking a record that is settled under the key, or nowhere, keeps the contents coherent. -/
theorem link (h : c.Coherent) {key : K} {entry : Entry V}
    (settled : c.SettledAt key entry.record)
    : (c.apply (.link key entry)).Coherent := by
  refine {
    tree := h.tree.insert key (fun slot member => Nat.lt_succ_of_le (h.seq_le member)) entry
    keyed := Locator.keyed_place h.keyed _ _
    located := h.located_link settled
    distinct := ?_
    apart := ?_
    liveBound := ?_
    retiredBound := ?_
    notBoth := ?_
  }
  · -- Only the linked record may have got a new number, and no other record has that.
    intro a b p q liveA liveB same
    simp only [apply, Locator.live?_place] at liveA liveB
    split at liveA <;> split at liveB
    next left right => rw [left, right]
    next left _ =>
      obtain rfl := Option.some.inj liveA
      exact left.trans (h.eq_of_seq_eq_placedSeq settled liveB same.symm).symm
    next _ right =>
      obtain rfl := Option.some.inj liveB
      exact (h.eq_of_seq_eq_placedSeq settled liveA same).trans right.symm
    next => exact h.distinct a b p q liveA liveB same
  · intro a b p r live retired
    simp only [apply, Locator.live?_place, Locator.retired?_place] at live retired
    split at retired
    next => contradiction
    next =>
      split at live
      · obtain rfl := Option.some.inj live
        exact h.placedSeq_ne_retired settled retired
      · exact h.apart a b p r live retired
  · intro record p live
    simp only [apply, Locator.live?_place] at live ⊢
    split at live
    · obtain rfl := Option.some.inj live
      exact h.placedSeq_le settled
    · exact Nat.le_succ_of_le (h.liveBound record p live)
  · intro record r retired
    simp only [apply, Locator.retired?_place] at retired ⊢
    split at retired
    · contradiction
    · exact Nat.le_succ_of_le (h.retiredBound record r retired)
  · intro record p live
    simp only [apply, Locator.live?_place, Locator.retired?_place] at live ⊢
    split at live
    next same => rw [if_pos same]
    next other =>
      rw [if_neg other]
      exact h.notBoth record p live

/-! ## Unlinking -/

/-- After unlinking a record, the tree still has every record where the locator has it. -/
theorem located_unlink (h : c.Coherent) {key : K} {record : RecordKey} {left : Position K}
    (wasLive : c.locator.live? record = some left) (there : compare key left.key = .eq)
    (other : RecordKey) (k : K) (seq : Nat)
    : (∃ p, (c.apply (.unlink key record)).locator.live? other = some p ∧ compare k p.key = .eq
          ∧ p.seq = seq)
      ↔ (c.apply (.unlink key record)).tree.seqOf? k other = some seq := by
  simp only [apply, Locator.live?_retire, Tree.seqOf?_eq, Tree.slot?_erase h.tree.sorted]
  by_cases same : other = record
  · subst same
    by_cases here : compare k key = .eq
    · simp [here]
    · -- The record was under no other key, since it lived under this one.
      have absent : c.tree.slot? k other = none := by
        refine Option.eq_none_iff_forall_ne_some.mpr fun slot found => here ?_
        obtain ⟨p, live, near, _⟩ := h.live_of_slot? found
        obtain rfl := Option.some.inj (wasLive.symm.trans live)
        exact TransCmp.eq_trans near (OrientedCmp.eq_symm there)
      simp [absent]
  · simpa [same, Tree.seqOf?_eq] using h.located other k seq

/-- Unlinking a record from the key it is under keeps the contents coherent. -/
theorem unlink (h : c.Coherent) {key : K} {record : RecordKey}
    (held : c.tree.holds key record)
    : (c.apply (.unlink key record)).Coherent := by
  obtain ⟨left, wasLive, there⟩ := h.live_of_holds held
  refine {
    tree := h.tree.erase key record
    keyed := Locator.keyed_retire h.keyed _
    located := h.located_unlink wasLive there
    distinct := ?_
    apart := ?_
    liveBound := ?_
    retiredBound := ?_
    notBoth := ?_
  }
  · intro a b p q liveA liveB same
    simp only [apply, Locator.live?_retire] at liveA liveB
    split at liveA <;> split at liveB
    all_goals first | contradiction | exact h.distinct a b p q liveA liveB same
  · -- What is newly retired is the number of the unlinked record, which no other record has.
    intro a b p r live retired
    simp only [apply, Locator.live?_retire] at live
    split at live
    next => contradiction
    next other =>
      rcases Locator.retired_retire retired with old | ⟨rfl, was⟩
      · exact h.apart a b p r live old
      · exact fun same => other (h.distinct a b p _ live was same)
  · intro other p live
    simp only [apply, Locator.live?_retire] at live
    split at live
    · contradiction
    · exact h.liveBound other p live
  · intro other r retired
    rcases Locator.retired_retire retired with old | ⟨rfl, was⟩
    · exact h.retiredBound other r old
    · exact h.liveBound other _ was
  · intro other p live
    simp only [apply, Locator.live?_retire] at live
    split at live
    next => contradiction
    next distinct =>
      refine Option.eq_none_iff_forall_ne_some.mpr fun r retired => ?_
      rcases Locator.retired_retire retired with old | ⟨same, _⟩
      · simp [h.notBoth other p live] at old
      · exact distinct same

end Coherent

end PagedIndex.Contents
