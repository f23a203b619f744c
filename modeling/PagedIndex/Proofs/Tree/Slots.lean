import PagedIndex.Proofs.Bucket.Order
import PagedIndex.Tree

/-! The view of a tree: the slot that each record has under each key. Inserting and erasing are
described by what they do to it, so that no proof about writes opens the list of leaves again.
-/

namespace PagedIndex.Tree

open Std

variable [Ord K]

/-- The slot of a record under a key in a list of leaves. -/
def slotIn (leaves : List (Leaf K V)) (key : K) (record : RecordKey) : Option (Slot V) :=
  (leaves.find? fun leaf => (compare key leaf.key).isEq).bind (·.bucket.slot? record)

/-- The slot of a record under a key. -/
def slot? (t : Tree K V) (key : K) (record : RecordKey) : Option (Slot V) :=
  slotIn t.leaves key record

@[simp] theorem slotIn_nil (key : K) (record : RecordKey)
    : slotIn ([] : List (Leaf K V)) key record = none := rfl

theorem slotIn_cons (leaf : Leaf K V) (rest : List (Leaf K V)) (key : K) (record : RecordKey)
    : slotIn (leaf :: rest) key record
      = if compare key leaf.key = .eq then leaf.bucket.slot? record
        else slotIn rest key record := by
  by_cases here : compare key leaf.key = .eq <;>
    simp [slotIn, here]

/-- Keys that compare as equal have the same slots. -/
theorem slotIn_congr [TransOrd K] (leaves : List (Leaf K V)) {a b : K}
    (same : compare a b = .eq) (record : RecordKey)
    : slotIn leaves a record = slotIn leaves b record := by
  simp only [slotIn, TransCmp.congr_left same]

/-- There is nothing under a key that lies before all leaves. -/
theorem slotIn_of_lt {leaves : List (Leaf K V)} {key : K}
    (before : ∀ leaf ∈ leaves, compare key leaf.key = .lt) (record : RecordKey)
    : slotIn leaves key record = none := by
  have missing : leaves.find? (fun leaf => (compare key leaf.key).isEq) = none := by
    refine List.find?_eq_none.mpr fun leaf member => ?_
    simp [before leaf member]
  rw [slotIn, missing, Option.bind_none]

theorem bucket?_bind (t : Tree K V) (key : K) (record : RecordKey)
    : (t.bucket? key).bind (·.slot? record) = t.slot? key record := by
  simp only [bucket?, leaf?, slot?, slotIn, Option.bind_map]
  rfl

theorem seqOf?_eq (t : Tree K V) (key : K) (record : RecordKey)
    : t.seqOf? key record = (t.slot? key record).map (·.seq) := by
  rw [← bucket?_bind, seqOf?, Option.map_bind]
  rfl

theorem holds_eq (t : Tree K V) (key : K) (record : RecordKey)
    : t.holds key record = (t.slot? key record).isSome := by
  rw [← bucket?_bind, holds]
  cases t.bucket? key with
  | none => rfl
  | some bucket => exact bucket.contains_eq record

theorem placedSeq_eq (t : Tree K V) (key : K) (seq : Nat) (record : RecordKey)
    : t.placedSeq key seq record = ((t.slot? key record).map (·.seq)).getD seq := by
  rw [placedSeq, seqOf?_eq]

variable [TransOrd K]

/-- There is nothing under a key that lies before the first leaf. -/
theorem slotIn_cons_of_lt {leaf : Leaf K V} {rest : List (Leaf K V)}
    (least : ∀ other ∈ rest, compare leaf.key other.key = .lt) {key : K}
    (order : compare key leaf.key = .lt) (record : RecordKey)
    : slotIn (leaf :: rest) key record = none := by
  refine slotIn_of_lt (fun other member => ?_) record
  rcases List.mem_cons.mp member with rfl | later
  · exact order
  · exact TransCmp.lt_trans order (least other later)

/-! ## Inserting -/

theorem slotIn_insertLeaf {leaves : List (Leaf K V)}
    (sorted : leaves.Pairwise fun a b => compare a.key b.key = .lt)
    (key : K) (seq : Nat) (entry : Entry V) (revision : Nat) (k : K) (record : RecordKey)
    : slotIn (insertLeaf key seq entry revision leaves) k record
      = if compare k key = .eq ∧ record = entry.record then
          some ⟨((slotIn leaves key entry.record).map (·.seq)).getD seq, entry⟩
        else slotIn leaves k record := by
  induction leaves with
  | nil =>
      simp only [insertLeaf, slotIn_cons, Bucket.slot?_append]
      by_cases here : compare k key = .eq <;> simp [here, Bucket.slot?, Bucket.empty,
        Bucket.placedSeq, Bucket.seqOf?]
  | cons leaf rest ih =>
      obtain ⟨least, tail⟩ := List.pairwise_cons.mp sorted
      unfold insertLeaf
      cases order : compare key leaf.key with
      | lt =>
          -- A new leaf comes first, and none of the old ones has its key.
          simp only [slotIn_cons _ (leaf :: rest), Bucket.slot?_append,
            slotIn_cons_of_lt least order]
          by_cases here : compare k key = .eq
          · rw [slotIn_congr (leaf :: rest) here, slotIn_cons_of_lt least order]
            simp [here, Bucket.slot?, Bucket.empty, Bucket.placedSeq, Bucket.seqOf?]
          · simp [here]
      | eq =>
          simp only [slotIn_cons, order, if_true, Bucket.slot?_append]
          rw [← TransCmp.congr_right order]
          by_cases here : compare k key = .eq <;> simp [here, Bucket.placedSeq, Bucket.seqOf?_eq]
      | gt =>
          simp only [slotIn_cons, ih tail, order]
          by_cases here : compare k leaf.key = .eq
          · have apart : compare k key ≠ .eq := by
              rw [TransCmp.congr_left here]
              simp [OrientedCmp.lt_of_gt order]
            simp [here, apart]
          · simp [here]

/-- Inserting gives the record of the entry its slot under the key and changes no other slot. -/
theorem slot?_insert {t : Tree K V}
    (sorted : t.leaves.Pairwise fun a b => compare a.key b.key = .lt) (key : K) (seq : Nat)
    (entry : Entry V) (k : K) (record : RecordKey)
    : (t.insert key seq entry).slot? k record
      = if compare k key = .eq ∧ record = entry.record then
          some ⟨t.placedSeq key seq entry.record, entry⟩
        else t.slot? k record := by
  rw [placedSeq_eq]
  exact slotIn_insertLeaf sorted key seq entry (t.version + 1) k record

/-! ## Erasing -/

theorem slotIn_eraseLeaf {leaves : List (Leaf K V)}
    (sorted : leaves.Pairwise fun a b => compare a.key b.key = .lt)
    (key : K) (erased : RecordKey) (revision : Nat) (k : K) (record : RecordKey)
    : slotIn (eraseLeaf key erased revision leaves) k record
      = if compare k key = .eq ∧ record = erased then none else slotIn leaves k record := by
  induction leaves with
  | nil => simp [eraseLeaf]
  | cons leaf rest ih =>
      obtain ⟨least, tail⟩ := List.pairwise_cons.mp sorted
      unfold eraseLeaf
      cases order : compare key leaf.key with
      | lt =>
          by_cases here : compare k key = .eq
          · simp [here, slotIn_congr (leaf :: rest) here, slotIn_cons_of_lt least order]
          · simp [here]
      | eq =>
          have erase := leaf.bucket.slot?_erase erased record
          have same : compare k key = compare k leaf.key := TransCmp.congr_right order
          -- An empty bucket is dropped with its leaf, and nothing later has the key.
          by_cases gone : (leaf.bucket.erase erased).isEmpty
          · have nothing : (leaf.bucket.erase erased).slot? record = none := by
              have empty : (leaf.bucket.erase erased).slots = [] := List.isEmpty_iff.mp gone
              rw [Bucket.slot?, empty, List.find?_nil]
            rw [erase] at nothing
            simp only [gone, if_true, slotIn_cons, same]
            by_cases here : compare k leaf.key = .eq
            · have beyond : slotIn rest k record = none :=
                slotIn_of_lt
                  (fun other member => TransCmp.lt_of_eq_of_lt here (least other member)) _
              simp only [here, true_and, beyond, if_true, nothing]
            · simp [here]
          · simp only [gone, if_false, slotIn_cons, erase, same, Bool.false_eq_true]
            by_cases here : compare k leaf.key = .eq <;> simp [here]
      | gt =>
          simp only [slotIn_cons, ih tail]
          by_cases here : compare k leaf.key = .eq
          · have apart : compare k key ≠ .eq := by
              rw [TransCmp.congr_left here]
              simp [OrientedCmp.lt_of_gt order]
            simp [here, apart]
          · simp [here]

/-- Erasing takes the slot of the record under the key away and changes no other slot. -/
theorem slot?_erase {t : Tree K V} (sorted : t.leaves.Pairwise fun a b => compare a.key b.key = .lt)
    (key : K) (erased : RecordKey) (k : K) (record : RecordKey)
    : (t.erase key erased).slot? k record
      = if compare k key = .eq ∧ record = erased then none else t.slot? k record := by
  unfold erase
  split
  · exact slotIn_eraseLeaf sorted key erased (t.version + 1) k record
  next absent =>
    split
    next here =>
      obtain ⟨same, rfl⟩ := here
      rw [slot?, slotIn_congr t.leaves same, ← slot?]
      simpa [holds_eq] using absent
    next => rfl

end PagedIndex.Tree
