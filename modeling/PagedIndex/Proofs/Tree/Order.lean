import PagedIndex.Proofs.Range.Reach
import PagedIndex.Proofs.Tree.Slots

/-! Trees stay in order: leaves ascend without equal keys, no bucket is empty, every bucket is in
order itself, and the size is the number of slots. Inserting keeps this if the number that comes
in lies above all others, erasing keeps it always.
-/

namespace PagedIndex.Tree

open Std

/-- All slots of a tree, leaf by leaf. -/
def slots (t : Tree K V) : List (Slot V) := t.leaves.flatMap (·.bucket.slots)

/-- The shape of a tree that its writes keep. -/
structure Ordered [Ord K] (t : Tree K V) : Prop where
  sorted : t.leaves.Pairwise fun a b => compare a.key b.key = .lt
  filled : ∀ leaf ∈ t.leaves, leaf.bucket.slots ≠ []
  buckets : ∀ leaf ∈ t.leaves, leaf.bucket.Ordered
  size_eq : t.size = t.slots.length

variable [Ord K] {t : Tree K V}

/-- A tree without leaves is in order. -/
theorem ordered_nil (version : Nat) : ({ leaves := [], size := 0, version } : Tree K V).Ordered :=
  ⟨.nil, by simp, by simp, rfl⟩

variable [TransOrd K]

/-- In a sorted list the leaf found under a key is the one whose key compares as equal. -/
theorem find?_leaf_eq_some_iff {leaves : List (Leaf K V)}
    (sorted : leaves.Pairwise fun a b => compare a.key b.key = .lt) {key : K} {leaf : Leaf K V}
    : leaves.find? (fun leaf => (compare key leaf.key).isEq) = some leaf
      ↔ leaf ∈ leaves ∧ compare key leaf.key = .eq := by
  constructor
  · intro found
    exact ⟨List.mem_of_find?_eq_some found, by simpa using List.find?_some found⟩
  · rintro ⟨member, here⟩
    induction leaves with
    | nil => exact absurd member List.not_mem_nil
    | cons head rest ih =>
        obtain ⟨least, tail⟩ := List.pairwise_cons.mp sorted
        rcases List.mem_cons.mp member with rfl | later
        · simp [here]
        · have apart : compare key head.key = .gt := by
            rw [TransCmp.congr_left here]
            exact OrientedCmp.gt_of_lt (least leaf later)
          simp [apart, ih tail later]

/-- The slots under a key are those of the bucket there. -/
theorem Ordered.slot?_eq_some_iff (h : t.Ordered) {key : K} {record : RecordKey} {slot : Slot V}
    : t.slot? key record = some slot
      ↔ ∃ leaf ∈ t.leaves, compare key leaf.key = .eq ∧ slot ∈ leaf.bucket.slots
          ∧ slot.entry.record = record := by
  simp only [slot?, slotIn, Option.bind_eq_some_iff, find?_leaf_eq_some_iff h.sorted]
  constructor
  · rintro ⟨leaf, ⟨member, here⟩, found⟩
    exact ⟨leaf, member, here, (h.buckets leaf member).slot?_eq_some_iff.mp found⟩
  · rintro ⟨leaf, member, here, found⟩
    exact ⟨leaf, ⟨member, here⟩, (h.buckets leaf member).slot?_eq_some_iff.mpr found⟩

theorem Ordered.slot?_of_mem (h : t.Ordered) {leaf : Leaf K V} (found : leaf ∈ t.leaves)
    {slot : Slot V} (there : slot ∈ leaf.bucket.slots)
    : t.slot? leaf.key slot.entry.record = some slot :=
  h.slot?_eq_some_iff.mpr ⟨leaf, found, ReflCmp.compare_self, there, rfl⟩

/-- Under its key a leaf is found again. -/
theorem Ordered.leaf?_of_mem (h : t.Ordered) {leaf : Leaf K V} (found : leaf ∈ t.leaves)
    : t.leaf? leaf.key = some leaf :=
  (find?_leaf_eq_some_iff h.sorted).mpr ⟨found, ReflCmp.compare_self⟩

theorem Ordered.eq_of_compare_eq (h : t.Ordered) {a b : Leaf K V} (left : a ∈ t.leaves)
    (right : b ∈ t.leaves) (same : compare a.key b.key = .eq)
    : a = b :=
  Option.some.inj ((h.leaf?_of_mem left).symm.trans
    ((find?_leaf_eq_some_iff h.sorted).mpr ⟨right, same⟩))

/-! ## Inserting -/

omit [TransOrd K] in
/-- A leaf after an insertion is an old one, or the one under the key with an appended bucket and
the new revision.
-/
theorem mem_insertLeaf {leaves : List (Leaf K V)} {key : K} {seq : Nat} {entry : Entry V}
    {revision : Nat} {leaf : Leaf K V}
    (member : leaf ∈ insertLeaf key seq entry revision leaves)
    : leaf ∈ leaves
      ∨ leaf.revision = revision
        ∧ ∃ bucket : Bucket V, leaf.bucket = bucket.append seq entry
          ∧ ((bucket = .empty ∧ leaf.key = key)
            ∨ ∃ old ∈ leaves, bucket = old.bucket ∧ leaf.key = old.key) := by
  induction leaves with
  | nil =>
      obtain rfl := List.mem_singleton.mp member
      exact Or.inr ⟨rfl, .empty, rfl, Or.inl ⟨rfl, rfl⟩⟩
  | cons head rest ih =>
      unfold insertLeaf at member
      split at member
      · rcases List.mem_cons.mp member with rfl | old
        · exact Or.inr ⟨rfl, .empty, rfl, Or.inl ⟨rfl, rfl⟩⟩
        · exact Or.inl old
      · rcases List.mem_cons.mp member with rfl | old
        · exact Or.inr ⟨rfl, head.bucket, rfl, Or.inr ⟨head, by simp, rfl, rfl⟩⟩
        · exact Or.inl (List.mem_cons_of_mem _ old)
      · rcases List.mem_cons.mp member with rfl | later
        · exact Or.inl (by simp)
        · rcases ih later with old | ⟨renewed, bucket, grown, origin⟩
          · exact Or.inl (List.mem_cons_of_mem _ old)
          · refine Or.inr ⟨renewed, bucket, grown, origin.imp_right ?_⟩
            rintro ⟨old, found, same⟩
            exact ⟨old, List.mem_cons_of_mem _ found, same⟩

theorem sorted_insertLeaf {leaves : List (Leaf K V)}
    (sorted : leaves.Pairwise fun a b => compare a.key b.key = .lt)
    (key : K) (seq : Nat) (entry : Entry V) (revision : Nat)
    : (insertLeaf key seq entry revision leaves).Pairwise
        fun a b => compare a.key b.key = .lt := by
  induction leaves with
  | nil => simp [insertLeaf]
  | cons head rest ih =>
      obtain ⟨least, tail⟩ := List.pairwise_cons.mp sorted
      unfold insertLeaf
      split
      next order =>
        refine List.pairwise_cons.mpr ⟨?_, sorted⟩
        intro other member
        rcases List.mem_cons.mp member with rfl | later
        · exact order
        · exact TransCmp.lt_trans order (least other later)
      next => exact List.pairwise_cons.mpr ⟨least, tail⟩
      next order =>
        refine List.pairwise_cons.mpr ⟨?_, ih tail⟩
        intro other member
        rcases mem_insertLeaf member with old | ⟨_, _, _, ⟨_, same⟩ | ⟨old, found, _, same⟩⟩
        · exact least other old
        · rw [same]
          exact OrientedCmp.lt_of_gt order
        · rw [same]
          exact least old found

/-- Inserting adds one slot unless it replaces an entry. -/
theorem length_insertLeaf {leaves : List (Leaf K V)}
    (sorted : leaves.Pairwise fun a b => compare a.key b.key = .lt)
    (key : K) (seq : Nat) (entry : Entry V) (revision : Nat)
    : ((insertLeaf key seq entry revision leaves).flatMap (·.bucket.slots)).length
      = (leaves.flatMap (·.bucket.slots)).length
        + if (slotIn leaves key entry.record).isSome then 0 else 1 := by
  have appended (bucket : Bucket V)
      : (bucket.append seq entry).slots.length
        = bucket.slots.length + if (bucket.slot? entry.record).isSome then 0 else 1 := by
    rw [← Bucket.contains_eq]
    exact bucket.size_append seq entry
  induction leaves with
  | nil => simp [insertLeaf, appended, Bucket.slot?, Bucket.empty]
  | cons head rest ih =>
      obtain ⟨least, tail⟩ := List.pairwise_cons.mp sorted
      unfold insertLeaf
      cases order : compare key head.key with
      | lt =>
          rw [slotIn_cons_of_lt least order]
          simp [appended, Bucket.slot?, Bucket.empty, Nat.add_comm]
      | eq =>
          simp only [List.flatMap_cons, List.length_append, appended, slotIn_cons, order, if_true]
          omega
      | gt =>
          simp only [List.flatMap_cons, List.length_append, ih tail, slotIn_cons, order]
          simp [Nat.add_assoc]

/-- An insertion under a number above all others keeps the tree in order. -/
theorem Ordered.insert (h : t.Ordered) (key : K) {seq : Nat}
    (last : ∀ slot ∈ t.slots, slot.seq < seq) (entry : Entry V)
    : (t.insert key seq entry).Ordered where
  sorted := sorted_insertLeaf h.sorted key seq entry _
  filled := by
    intro leaf member
    rcases mem_insertLeaf member with old | ⟨_, bucket, grown, _⟩
    · exact h.filled leaf old
    · rw [grown]
      exact bucket.append_ne_nil seq entry
  buckets := by
    intro leaf member
    rcases mem_insertLeaf member with old | ⟨_, bucket, grown, ⟨rfl, _⟩ | ⟨old, found, rfl, _⟩⟩
    · exact h.buckets leaf old
    · rw [grown]
      exact Bucket.ordered_empty.append (by simp [Bucket.empty]) entry
    · rw [grown]
      refine (h.buckets old found).append (fun slot there => ?_) entry
      exact last slot (List.mem_flatMap.mpr ⟨old, found, there⟩)
  size_eq := by
    have grown := length_insertLeaf h.sorted key seq entry (t.version + 1)
    have before := h.size_eq
    simp only [Tree.insert, slots, holds_eq, slot?] at grown before ⊢
    rw [grown, ← before]
    split <;> rfl

/-! ## Erasing -/

omit [TransOrd K] in
/-- A leaf after an erasure is an old one, or one that has lost the record, is not empty and has the
new revision.
-/
theorem mem_eraseLeaf {leaves : List (Leaf K V)} {key : K} {record : RecordKey} {revision : Nat}
    {leaf : Leaf K V} (member : leaf ∈ eraseLeaf key record revision leaves)
    : leaf ∈ leaves
      ∨ leaf.revision = revision
        ∧ ∃ old ∈ leaves, leaf.bucket = old.bucket.erase record ∧ leaf.bucket.slots ≠ [] := by
  induction leaves with
  | nil => exact absurd member List.not_mem_nil
  | cons head rest ih =>
      unfold eraseLeaf at member
      split at member
      · exact Or.inl member
      · simp only at member
        split at member
        · exact Or.inl (List.mem_cons_of_mem _ member)
        next left =>
          rcases List.mem_cons.mp member with rfl | old
          · exact Or.inr ⟨rfl, head, by simp, rfl, by simpa [Bucket.isEmpty] using left⟩
          · exact Or.inl (List.mem_cons_of_mem _ old)
      · rcases List.mem_cons.mp member with rfl | later
        · exact Or.inl (by simp)
        · rcases ih later with old | ⟨renewed, old, found, erased⟩
          · exact Or.inl (List.mem_cons_of_mem _ old)
          · exact Or.inr ⟨renewed, old, List.mem_cons_of_mem _ found, erased⟩

omit [TransOrd K] in
theorem map_key_eraseLeaf (leaves : List (Leaf K V)) (key : K) (record : RecordKey)
    (revision : Nat)
    : ((eraseLeaf key record revision leaves).map (·.key)).Sublist (leaves.map (·.key)) := by
  induction leaves with
  | nil => exact .refl _
  | cons head rest ih =>
      unfold eraseLeaf
      split
      · exact .refl _
      · simp only
        split
        · exact List.sublist_cons_self _ _
        · exact .refl _
      · exact ih.cons_cons _

omit [TransOrd K] in
theorem sorted_erase (sorted : t.leaves.Pairwise fun a b => compare a.key b.key = .lt) (key : K)
    (record : RecordKey)
    : (t.erase key record).leaves.Pairwise fun a b => compare a.key b.key = .lt := by
  unfold erase
  split
  · have keys : (t.leaves.map (·.key)).Pairwise fun a b => compare a b = .lt :=
      List.pairwise_map.mpr sorted
    exact List.pairwise_map.mp (keys.sublist (map_key_eraseLeaf _ _ _ _))
  · exact sorted

/-- Erasing a record that is held takes one slot away. -/
theorem length_eraseLeaf {leaves : List (Leaf K V)}
    (sorted : leaves.Pairwise fun a b => compare a.key b.key = .lt)
    (buckets : ∀ leaf ∈ leaves, leaf.bucket.Ordered) {key : K} {record : RecordKey}
    (held : (slotIn leaves key record).isSome) (revision : Nat)
    : ((eraseLeaf key record revision leaves).flatMap (·.bucket.slots)).length + 1
      = (leaves.flatMap (·.bucket.slots)).length := by
  induction leaves with
  | nil => simp at held
  | cons head rest ih =>
      obtain ⟨least, tail⟩ := List.pairwise_cons.mp sorted
      unfold eraseLeaf
      cases order : compare key head.key with
      | lt => simp [slotIn_cons_of_lt least order] at held
      | eq =>
          -- Whether the bucket goes or stays, what is left of it has one slot less.
          simp only [slotIn_cons, order, if_true, ← Bucket.contains_eq] at held
          have shrunk := (buckets head (by simp)).size_erase held
          have filled : head.bucket.size ≠ 0 := by
            obtain ⟨slot, found, _⟩ := List.any_eq_true.mp held
            exact Nat.ne_of_gt (List.length_pos_of_mem found)
          simp only [Bucket.size] at shrunk filled
          simp only
          split
          next gone =>
            have empty : (head.bucket.erase record).slots = [] := List.isEmpty_iff.mp gone
            rw [empty, List.length_nil] at shrunk
            simp only [List.flatMap_cons, List.length_append]
            omega
          next =>
            simp only [List.flatMap_cons, List.length_append, shrunk]
            omega
      | gt =>
          have later : (slotIn rest key record).isSome := by
            simpa [slotIn_cons, order] using held
          have inOrder : ∀ leaf ∈ rest, leaf.bucket.Ordered := fun leaf member =>
            buckets leaf (List.mem_cons_of_mem _ member)
          have shrunk := ih tail inOrder later
          simp only [List.flatMap_cons, List.length_append]
          omega

/-- Erasing keeps the tree in order. -/
theorem Ordered.erase (h : t.Ordered) (key : K) (record : RecordKey)
    : (t.erase key record).Ordered := by
  have sorted := sorted_erase h.sorted key record
  unfold Tree.erase at sorted ⊢
  split at sorted
  next held =>
    rw [if_pos held]
    refine ⟨sorted, ?_, ?_, ?_⟩
    · intro leaf member
      rcases mem_eraseLeaf member with old | ⟨_, _, _, _, filled⟩
      · exact h.filled leaf old
      · exact filled
    · intro leaf member
      rcases mem_eraseLeaf member with old | ⟨_, old, found, erased, _⟩
      · exact h.buckets leaf old
      · rw [erased]
        exact (h.buckets old found).erase record
    · rw [holds_eq] at held
      have shrunk := length_eraseLeaf h.sorted h.buckets held (t.version + 1)
      have before := h.size_eq
      simp only [slots] at before ⊢
      omega
  next absent =>
    rw [if_neg absent]
    exact h

/-! ## Copying a range -/

/-- The leaves of a copied range are those in the range, without their revisions. -/
theorem leaves_restrictedTo (t : Tree K V) {d : Descriptor K} (possible : d.isEmptyRange = false)
    : (t.restrictedTo d).leaves
      = (t.leaves.filter fun leaf => d.contains leaf.key).map fun leaf =>
          { leaf with revision := 0 } := by
  simp [restrictedTo, copyOf, Descriptor.endpoints?, possible, d.contains_eq]

/-- The copy of a range is in order. -/
theorem Ordered.restrictedTo (h : t.Ordered) (d : Descriptor K) : (t.restrictedTo d).Ordered := by
  by_cases nothing : d.isEmptyRange = true
  · have copy : t.restrictedTo d = copyOf [] := by
      simp [Tree.restrictedTo, Descriptor.endpoints?, nothing]
    exact copy ▸ ordered_nil 0
  · have leaves := t.leaves_restrictedTo (Bool.eq_false_iff.mpr nothing)
    have origin : ∀ leaf ∈ (t.restrictedTo d).leaves,
        ∃ old ∈ t.leaves, leaf.bucket = old.bucket := by
      intro leaf member
      rw [leaves] at member
      obtain ⟨old, kept, rfl⟩ := List.mem_map.mp member
      exact ⟨old, (List.mem_filter.mp kept).1, rfl⟩
    refine ⟨?_, ?_, ?_, ?_⟩
    · rw [leaves]
      exact List.pairwise_map.mpr (h.sorted.filter _)
    · intro leaf member
      obtain ⟨old, found, same⟩ := origin leaf member
      exact same ▸ h.filled old found
    · intro leaf member
      obtain ⟨old, found, same⟩ := origin leaf member
      exact same ▸ h.buckets old found
    · have counted (ls : List (Leaf K V)) (n : Nat)
          : ls.foldl (fun n leaf => n + leaf.bucket.size) n
            = n + (ls.flatMap (·.bucket.slots)).length := by
        induction ls generalizing n with
        | nil => rfl
        | cons leaf rest ih =>
            rw [List.foldl_cons, ih, List.flatMap_cons, List.length_append, Bucket.size]
            omega
      rw [slots, leaves]
      simp [Tree.restrictedTo, copyOf, Descriptor.endpoints?, nothing, counted, d.contains_eq,
        List.flatMap_map]

end PagedIndex.Tree
