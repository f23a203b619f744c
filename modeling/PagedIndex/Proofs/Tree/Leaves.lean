import PagedIndex.Proofs.Tree.Order

/-! The leaf of each key in a tree. A write gives the bucket of its key a new revision, unless it
takes the last entry and the bucket with it. The leaves of all other keys stay as they are.
-/

namespace PagedIndex

/-- A leaf after an entry has been appended to its bucket. -/
def Leaf.appended (leaf : Leaf K V) (seq : Nat) (entry : Entry V) (revision : Nat) : Leaf K V :=
  { leaf with bucket := leaf.bucket.append seq entry, revision }

/-- A leaf after a record has been taken out of its bucket, if anything is left there. -/
def Leaf.without? (leaf : Leaf K V) (record : RecordKey) (revision : Nat) : Option (Leaf K V) :=
  if (leaf.bucket.erase record).isEmpty then none
  else some { leaf with bucket := leaf.bucket.erase record, revision }

theorem Leaf.revision_without? {leaf left : Leaf K V} {record : RecordKey} {revision : Nat}
    (stays : leaf.without? record revision = some left)
    : left.revision = revision := by
  unfold without? at stays
  split at stays
  next => contradiction
  next =>
    obtain rfl := Option.some.inj stays
    rfl

namespace Tree

open Std

variable [Ord K]

/-- The leaf of a key in a list of leaves. -/
def leafIn (leaves : List (Leaf K V)) (key : K) : Option (Leaf K V) :=
  leaves.find? fun leaf => (compare key leaf.key).isEq

theorem leafIn_cons (leaf : Leaf K V) (rest : List (Leaf K V)) (key : K)
    : leafIn (leaf :: rest) key
      = if compare key leaf.key = .eq then some leaf else leafIn rest key := by
  by_cases here : compare key leaf.key = .eq <;> simp [leafIn, here]

variable [TransOrd K]

/-- Keys that compare as equal have the same leaf. -/
theorem leafIn_congr (leaves : List (Leaf K V)) {a b : K} (same : compare a b = .eq)
    : leafIn leaves a = leafIn leaves b := by
  simp only [leafIn, TransCmp.congr_left same]

/-- There is no leaf for a key that lies before the first one. -/
theorem leafIn_cons_of_lt {leaf : Leaf K V} {rest : List (Leaf K V)}
    (least : ∀ other ∈ rest, compare leaf.key other.key = .lt) {key : K}
    (order : compare key leaf.key = .lt)
    : leafIn (leaf :: rest) key = none := by
  refine List.find?_eq_none.mpr fun other member => ?_
  rcases List.mem_cons.mp member with rfl | later
  · simp [order]
  · simp [TransCmp.lt_trans order (least other later)]

/-! ## Inserting -/

theorem leafIn_insertLeaf {leaves : List (Leaf K V)}
    (sorted : leaves.Pairwise fun a b => compare a.key b.key = .lt)
    (key : K) (seq : Nat) (entry : Entry V) (revision : Nat) (k : K)
    : leafIn (insertLeaf key seq entry revision leaves) k
      = if compare k key = .eq then
          some (((leafIn leaves key).getD ⟨key, .empty, revision⟩).appended seq entry revision)
        else leafIn leaves k := by
  induction leaves with
  | nil =>
      simp only [insertLeaf, leafIn_cons]
      rfl
  | cons leaf rest ih =>
      obtain ⟨least, tail⟩ := List.pairwise_cons.mp sorted
      unfold insertLeaf
      cases order : compare key leaf.key with
      | lt =>
          -- A new leaf comes first, and none of the old ones has its key.
          simp only [leafIn_cons _ (leaf :: rest), leafIn_cons_of_lt least order]
          rfl
      | eq =>
          simp only [leafIn_cons, order, if_true]
          rw [← TransCmp.congr_right order]
          by_cases here : compare k key = .eq
          · simp only [here, if_true]
            rfl
          · simp only [here, if_false]
      | gt =>
          simp only [leafIn_cons, ih tail, order]
          by_cases here : compare k leaf.key = .eq
          · have apart : compare k key ≠ .eq := by
              rw [TransCmp.congr_left here]
              simp [OrientedCmp.lt_of_gt order]
            simp [here, apart]
          · simp [here]

/-- Inserting gives the key a leaf of the new revision and changes no other leaf. -/
theorem leaf?_insert {t : Tree K V}
    (sorted : t.leaves.Pairwise fun a b => compare a.key b.key = .lt) (key : K) (seq : Nat)
    (entry : Entry V) (k : K)
    : (t.insert key seq entry).leaf? k
      = if compare k key = .eq then
          some (((t.leaf? key).getD ⟨key, .empty, t.version + 1⟩).appended seq entry
            (t.version + 1))
        else t.leaf? k :=
  leafIn_insertLeaf sorted key seq entry (t.version + 1) k

/-! ## Erasing -/

theorem leafIn_eraseLeaf {leaves : List (Leaf K V)}
    (sorted : leaves.Pairwise fun a b => compare a.key b.key = .lt)
    (key : K) (record : RecordKey) (revision : Nat) (k : K)
    : leafIn (eraseLeaf key record revision leaves) k
      = if compare k key = .eq then (leafIn leaves key).bind (·.without? record revision)
        else leafIn leaves k := by
  induction leaves with
  | nil => simp [eraseLeaf, leafIn]
  | cons leaf rest ih =>
      obtain ⟨least, tail⟩ := List.pairwise_cons.mp sorted
      unfold eraseLeaf
      cases order : compare key leaf.key with
      | lt =>
          by_cases here : compare k key = .eq
          · simp [here, leafIn_congr (leaf :: rest) here, leafIn_cons_of_lt least order]
          · simp [here]
      | eq =>
          have same : compare k key = compare k leaf.key := TransCmp.congr_right order
          simp only [leafIn_cons _ rest, order, if_true, same, Option.bind_some, Leaf.without?]
          -- With its last entry the bucket is gone, and nothing later has the key.
          by_cases gone : (leaf.bucket.erase record).isEmpty
          · simp only [gone, if_true]
            by_cases here : compare k leaf.key = .eq
            · have beyond : leafIn rest k = none :=
                List.find?_eq_none.mpr fun other member => by
                  simp [TransCmp.lt_of_eq_of_lt here (least other member)]
              simp [here, beyond]
            · simp [here]
          · simp only [gone, if_false, leafIn_cons, Bool.false_eq_true]
            by_cases here : compare k leaf.key = .eq <;> simp [here]
      | gt =>
          simp only [leafIn_cons, ih tail, order]
          by_cases here : compare k leaf.key = .eq
          · have apart : compare k key ≠ .eq := by
              rw [TransCmp.congr_left here]
              simp [OrientedCmp.lt_of_gt order]
            simp [here, apart]
          · simp [here]

/-- Erasing gives the key a leaf of the new revision or none, and changes no other leaf. -/
theorem leaf?_erase {t : Tree K V}
    (sorted : t.leaves.Pairwise fun a b => compare a.key b.key = .lt) (key : K)
    (record : RecordKey) (k : K)
    : (t.erase key record).leaf? k
      = if compare k key = .eq ∧ t.holds key record then
          (t.leaf? key).bind (·.without? record (t.version + 1))
        else t.leaf? k := by
  unfold erase
  split
  next held =>
    simp only [held, and_true]
    exact leafIn_eraseLeaf sorted key record (t.version + 1) k
  next absent => simp only [absent, and_false, if_false, Bool.false_eq_true]

/-! ## Revisions -/

/-- No leaf has a revision above a number. -/
def Dated (t : Tree K V) (version : Nat) : Prop :=
  ∀ key leaf, t.leaf? key = some leaf → leaf.revision ≤ version

omit [TransOrd K] in
theorem dated_empty (version : Nat) : (empty : Tree K V).Dated version := by
  intro key leaf found
  simp [leaf?, empty] at found

omit [TransOrd K] in
theorem Dated.mono {t : Tree K V} {version later : Nat} (dated : t.Dated version)
    (le : version ≤ later)
    : t.Dated later :=
  fun key leaf found => Nat.le_trans (dated key leaf found) le

theorem Dated.insert {t : Tree K V} (dated : t.Dated t.version)
    (sorted : t.leaves.Pairwise fun a b => compare a.key b.key = .lt) (key : K) (seq : Nat)
    (entry : Entry V)
    : (t.insert key seq entry).Dated (t.insert key seq entry).version := by
  intro k leaf found
  rw [leaf?_insert sorted] at found
  split at found
  · obtain rfl := Option.some.inj found
    exact Nat.le_refl _
  · exact Nat.le_succ_of_le (dated k leaf found)

omit [TransOrd K] in
theorem version_le_erase (t : Tree K V) (key : K) (record : RecordKey)
    : t.version ≤ (t.erase key record).version := by
  unfold erase
  split
  · exact Nat.le_succ _
  · exact Nat.le_refl _

theorem Dated.erase {t : Tree K V} (dated : t.Dated t.version)
    (sorted : t.leaves.Pairwise fun a b => compare a.key b.key = .lt) (key : K)
    (record : RecordKey)
    : (t.erase key record).Dated (t.erase key record).version := by
  intro k leaf found
  rw [leaf?_erase sorted] at found
  split at found
  next erased =>
    obtain ⟨old, _, stays⟩ := Option.bind_eq_some_iff.mp found
    have newest := Leaf.revision_without? stays
    rw [Tree.erase, if_pos erased.2]
    exact Nat.le_of_eq newest
  next => exact Nat.le_trans (dated k leaf found) (t.version_le_erase key record)

omit [TransOrd K] in
theorem sharesBucket_iff {t other : Tree K V} {key : K}
    : t.sharesBucket other key = true
      ↔ ∃ mine theirs, t.leaf? key = some mine ∧ other.leaf? key = some theirs
          ∧ mine.revision = theirs.revision := by
  unfold sharesBucket
  split
  next mine theirs here there => simp [here, there]
  next apart =>
    simp only [Bool.false_eq_true, false_iff]
    rintro ⟨mine, theirs, here, there, _⟩
    exact apart mine theirs here there

omit [TransOrd K] in
/-- A tree shares all its buckets with itself. -/
theorem sharesBucket_self (t : Tree K V) (key : K)
    : t.sharesBucket t key = (t.leaf? key).isSome := by
  unfold sharesBucket
  cases t.leaf? key with
  | none => rfl
  | some leaf => exact beq_self_eq_true leaf.revision

omit [TransOrd K] in
theorem sharesBucket_congr {t t' : Tree K V} {key : K} (same : t'.leaf? key = t.leaf? key)
    (other : Tree K V)
    : t'.sharesBucket other key = t.sharesBucket other key := by
  rw [sharesBucket, sharesBucket, same]

/-- A write under a key makes a bucket of its own there. -/
theorem not_sharesBucket_insert {t other : Tree K V} (dated : other.Dated t.version)
    (sorted : t.leaves.Pairwise fun a b => compare a.key b.key = .lt) {key k : K}
    (here : compare k key = .eq) (seq : Nat) (entry : Entry V)
    : (t.insert key seq entry).sharesBucket other k = false := by
  rw [Bool.eq_false_iff, Ne, sharesBucket_iff]
  rintro ⟨mine, theirs, written, there, same⟩
  rw [leaf?_insert sorted, if_pos here] at written
  obtain rfl := Option.some.inj written
  have old := dated k theirs there
  rw [← same] at old
  exact absurd old (Nat.not_succ_le_self t.version)

theorem not_sharesBucket_erase {t other : Tree K V} (dated : other.Dated t.version)
    (sorted : t.leaves.Pairwise fun a b => compare a.key b.key = .lt) {key k : K}
    {record : RecordKey} (here : compare k key = .eq) (held : t.holds key record)
    : (t.erase key record).sharesBucket other k = false := by
  rw [Bool.eq_false_iff, Ne, sharesBucket_iff]
  rintro ⟨mine, theirs, written, there, same⟩
  rw [leaf?_erase sorted, if_pos ⟨here, held⟩] at written
  obtain ⟨_, _, stays⟩ := Option.bind_eq_some_iff.mp written
  have old := dated k theirs there
  rw [← same, Leaf.revision_without? stays] at old
  exact absurd old (Nat.not_succ_le_self t.version)

/-! ## Private copies -/

/-- A tree and its buckets have the numbers of writes. -/
structure Numbered (t : Tree K V) : Prop where
  version : 0 < t.version
  revisions : ∀ leaf ∈ t.leaves, 0 < leaf.revision

/-- Neither a tree nor one of its buckets has the number of a write. -/
structure Private (t : Tree K V) : Prop where
  version : t.version = 0
  revisions : ∀ leaf ∈ t.leaves, leaf.revision = 0

omit [Ord K] [TransOrd K] in
theorem numbered_empty : (empty : Tree K V).Numbered where
  version := Nat.one_pos
  revisions := by simp [empty]

omit [Ord K] [TransOrd K] in
theorem numbered_cleared (t : Tree K V) : t.cleared.Numbered where
  version := Nat.succ_pos t.version
  revisions := by simp [cleared]

omit [TransOrd K] in
theorem Numbered.insert {t : Tree K V} (h : t.Numbered) (key : K) (seq : Nat) (entry : Entry V)
    : (t.insert key seq entry).Numbered where
  version := Nat.succ_pos t.version
  revisions leaf member := by
    rcases mem_insertLeaf member with old | ⟨renewed, _⟩
    · exact h.revisions leaf old
    · exact renewed ▸ Nat.succ_pos t.version

omit [TransOrd K] in
theorem Numbered.erase {t : Tree K V} (h : t.Numbered) (key : K) (record : RecordKey)
    : (t.erase key record).Numbered := by
  unfold Tree.erase
  split
  · refine ⟨Nat.succ_pos t.version, fun leaf member => ?_⟩
    rcases mem_eraseLeaf member with old | ⟨renewed, _⟩
    · exact h.revisions leaf old
    · exact renewed ▸ Nat.succ_pos t.version
  · exact h

omit [Ord K] [TransOrd K] in
theorem private_copyOf (leaves : List (Leaf K V)) : (copyOf leaves).Private where
  version := rfl
  revisions leaf member := by
    obtain ⟨_, _, rfl⟩ := List.mem_map.mp member
    rfl

omit [TransOrd K] in
/-- The copy of a range is private. -/
theorem private_restrictedTo (t : Tree K V) (d : Descriptor K) : (t.restrictedTo d).Private := by
  unfold restrictedTo
  split
  · exact private_copyOf []
  · exact private_copyOf _

omit [TransOrd K] in
theorem Private.dated {t : Tree K V} (h : t.Private) (version : Nat) : t.Dated version := by
  intro key leaf found
  rw [h.revisions leaf (List.mem_of_find?_eq_some found)]
  exact Nat.zero_le version

omit [TransOrd K] in
/-- A version of a tree shares no bucket with a private copy. -/
theorem Numbered.not_sharesBucket {t other : Tree K V} (h : t.Numbered) (copy : other.Private)
    (key : K)
    : t.sharesBucket other key = false := by
  rw [Bool.eq_false_iff, Ne, sharesBucket_iff]
  rintro ⟨mine, theirs, here, there, same⟩
  have numbered := h.revisions mine (List.mem_of_find?_eq_some here)
  rw [same, copy.revisions theirs (List.mem_of_find?_eq_some there)] at numbered
  exact absurd numbered (Nat.lt_irrefl 0)

end Tree

end PagedIndex
