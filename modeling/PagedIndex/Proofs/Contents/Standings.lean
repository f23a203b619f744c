import Mathlib.Data.List.Nodup
import PagedIndex.Proofs.Contents.Runs
import PagedIndex.Proofs.Scan.Standing

/-! What stands in an index. The locator says where a live record stands, and the bucket there says
with which entry; sorted by position, this is what the tree holds leaf by leaf.
-/

namespace PagedIndex.Contents

open Std

variable [Ord K] {c : Contents K V}

/-- A record at its position, with its current entry. -/
def standing? (c : Contents K V) (record : RecordKey) : Option (Standing K V) :=
  (c.locator.live? record).bind fun p =>
    (c.tree.slot? p.key record).map fun slot => ⟨p, slot.entry⟩

/-- Every live record, in ascending order of the positions. -/
def standings (c : Contents K V) : List (Standing K V) :=
  (c.locator.live.pairs.filterMap fun pair => c.standing? pair.1).mergeSort fun a b =>
    (a.position.compare .ascending b.position).isLE

/-- What stands in a range, in its direction. -/
def selection (c : Contents K V) (d : Descriptor K) : List (Standing K V) :=
  d.direction.arrange (c.standings.filter fun x => d.contains x.position.key)

/-- What is selected beyond a position to resume after. -/
def remaining (c : Contents K V) (d : Descriptor K) (resume : Option (Position K))
    : List (Standing K V) :=
  (c.selection d).filter fun x => x.position.isBeyond d.direction resume

theorem remaining_none (c : Contents K V) (d : Descriptor K) : c.remaining d none = c.selection d :=
  List.filter_eq_self.mpr fun _ _ => rfl

theorem standing?_eq_some_iff {record : RecordKey} {x : Standing K V}
    : c.standing? record = some x
      ↔ c.locator.live? record = some x.position
        ∧ ∃ slot, c.tree.slot? x.position.key record = some slot ∧ slot.entry = x.entry := by
  obtain ⟨p, entry⟩ := x
  simp only [standing?, Option.bind_eq_some_iff, Option.map_eq_some_iff, Standing.mk.injEq]
  constructor
  · rintro ⟨q, live, slot, found, rfl, own⟩
    exact ⟨live, slot, found, own⟩
  · rintro ⟨live, slot, found, own⟩
    exact ⟨p, live, slot, found, rfl, own⟩

/-- The cursor of a record that stands somewhere stands for its position. -/
theorem resolve_of_standing? {cursor : Cursor} {x : Standing K V}
    (stands : c.standing? cursor.record = some x)
    : c.locator.resolve cursor = some (.live x.position) := by
  have live := (standing?_eq_some_iff.mp stands).1
  rw [Locator.live?] at live
  rw [Locator.resolve, live]

/-- A standing of the tree, moved to where the locator has its record. -/
def settle (c : Contents K V) (x : Standing K V) : Standing K V :=
  { x with position := (c.locator.live? x.entry.record).getD x.position }

namespace Coherent

variable [TransOrd K]

theorem record_of_standing? (h : c.Coherent) {record : RecordKey} {x : Standing K V}
    (stands : c.standing? record = some x)
    : x.entry.record = record := by
  obtain ⟨_, slot, found, own⟩ := standing?_eq_some_iff.mp stands
  obtain ⟨_, _, _, _, same⟩ := h.tree.slot?_eq_some_iff.mp found
  rw [← own, same]

/-- Every live record stands at its position. -/
theorem standing?_of_live (h : c.Coherent) {record : RecordKey} {p : Position K}
    (live : c.locator.live? record = some p)
    : ∃ x, c.standing? record = some x ∧ x.position = p := by
  have inTree := (h.located record p.key p.seq).mp ⟨p, live, ReflCmp.compare_self, rfl⟩
  rw [Tree.seqOf?_eq] at inTree
  obtain ⟨slot, found, _⟩ := Option.map_eq_some_iff.mp inTree
  exact ⟨⟨p, slot.entry⟩, standing?_eq_some_iff.mpr ⟨live, slot, found, rfl⟩, rfl⟩

/-- What the tree holds stands where the locator has it, up to keys that compare as equal. -/
theorem settled (h : c.Coherent) {x : Standing K V} (member : x ∈ c.tree.standings)
    : c.standing? x.entry.record = some (c.settle x)
      ∧ x.position.compare .ascending (c.settle x).position = .eq := by
  obtain ⟨leaf, found, inside⟩ := List.mem_flatMap.mp member
  obtain ⟨slot, there, rfl⟩ := List.mem_map.mp inside
  have inTree := h.tree.slot?_of_mem found there
  obtain ⟨p, live, here, same⟩ := h.live_of_slot? inTree
  have moved : c.settle ⟨⟨leaf.key, slot.seq⟩, slot.entry⟩ = ⟨p, slot.entry⟩ := by
    simp [settle, live]
  rw [moved, standing?_eq_some_iff, Position.compare_eq_iff]
  refine ⟨⟨live, slot, ?_, rfl⟩, here, same.symm⟩
  rw [Tree.slot?, Tree.slotIn_congr _ (OrientedCmp.eq_symm here)]
  exact inTree

/-- The list of what is live consists of the records that stand somewhere. -/
theorem mem_standings_iff (h : c.Coherent) {x : Standing K V}
    : x ∈ c.standings ↔ c.standing? x.entry.record = some x := by
  rw [standings, (List.mergeSort_perm _ _).mem_iff, List.mem_filterMap]
  constructor
  · rintro ⟨pair, _, stands⟩
    rw [h.record_of_standing? stands]
    exact stands
  · intro stands
    have live := (standing?_eq_some_iff.mp stands).1
    exact ⟨(x.entry.record, x.position), h.keyed.get?_eq_some_iff.mp live, stands⟩

/-- No record stands twice. -/
theorem single_standings (h : c.Coherent) : (c.standings.map (·.entry.record)).Nodup := by
  rw [standings, ((List.mergeSort_perm _ _).map _).nodup_iff, List.map_filterMap]
  have records : c.locator.live.pairs.filterMap
        (fun pair => (c.standing? pair.1).map (·.entry.record))
      = c.locator.live.pairs.map (·.1) := by
    refine List.filterMap_eq_map_iff_forall_eq_some.mpr fun pair member => ?_
    obtain ⟨x, stands, _⟩ := h.standing?_of_live (h.keyed.get?_eq_some_iff.mpr member)
    rw [stands, Option.map_some, h.record_of_standing? stands]
  rw [records]
  exact h.keyed

/-- The tree holds what is live, each record once. -/
theorem standings_perm (h : c.Coherent) : (c.tree.standings.map c.settle).Perm c.standings := by
  have own : ((c.tree.standings.map c.settle).map (·.entry.record)).Nodup := by
    have single := h.single
    rw [Tree.slots, List.map_flatMap] at single
    rw [List.map_map, Tree.standings, List.map_flatMap]
    simpa [Leaf.standings, Function.comp_def, settle] using single
  refine (List.perm_ext_iff_of_nodup (own.of_map _) (h.single_standings.of_map _)).mpr fun x => ?_
  rw [h.mem_standings_iff, List.mem_map]
  constructor
  · rintro ⟨y, member, rfl⟩
    exact (h.settled member).1
  · intro stands
    obtain ⟨_, slot, found, same⟩ := standing?_eq_some_iff.mp stands
    obtain ⟨leaf, member, _, there, _⟩ := h.tree.slot?_eq_some_iff.mp found
    have held : (⟨⟨leaf.key, slot.seq⟩, slot.entry⟩ : Standing K V) ∈ c.tree.standings :=
      List.mem_flatMap.mpr ⟨leaf, member, List.mem_map.mpr ⟨slot, there, rfl⟩⟩
    refine ⟨_, held, Option.some.inj ?_⟩
    rw [← (h.settled held).1, ← stands, same]

/-- Settled, what the tree holds is still sorted by position. -/
theorem sorted_settled (h : c.Coherent)
    : (c.tree.standings.map c.settle).Pairwise fun a b =>
        a.position.compare .ascending b.position = .lt := by
  refine List.pairwise_map.mpr (h.tree.sorted_standings.imp_of_mem fun left right lt => ?_)
  rw [← TransCmp.congr_left (h.settled left).2, ← TransCmp.congr_right (h.settled right).2]
  exact lt

/-- Sorting what is live gives what the tree holds leaf by leaf: equal positions would have equal
numbers, and a number belongs to one record.
-/
theorem standings_eq (h : c.Coherent) : c.standings = c.tree.standings.map c.settle := by
  have sorted : c.standings.Pairwise fun a b =>
      (a.position.compare .ascending b.position).isLE = true := by
    refine List.pairwise_mergeSort (fun _ _ _ => TransCmp.isLE_trans) (fun a b => ?_) _
    rw [← OrientedCmp.isGE_eq_isLE (a := a.position)]
    cases a.position.compare .ascending b.position <;> rfl
  have leafByLeaf := h.sorted_settled.imp fun lt => Ordering.isLE_iff_eq_lt_or_eq_eq.mpr (Or.inl lt)
  -- Two sorted lists of the same standings agree, unless two standings compare as equal.
  refine List.Perm.eq_of_pairwise ?_ sorted leafByLeaf h.standings_perm.symm
  intro a b left right ab ba
  have same := (Position.compare_eq_iff _).mp (OrientedCmp.isLE_antisymm ab ba)
  have standsA := h.mem_standings_iff.mp left
  have standsB := h.mem_standings_iff.mp (h.standings_perm.mem_iff.mp right)
  have records := h.distinct _ _ _ _ (standing?_eq_some_iff.mp standsA).1
    (standing?_eq_some_iff.mp standsB).1 same.2
  rw [records, standsB] at standsA
  exact (Option.some.inj standsA).symm

/-! ## Leaves -/

/-- A live record stands in the leaf of its key. -/
theorem exists_leaf (h : c.Coherent) {record : RecordKey} {q : Position K}
    (live : c.locator.live? record = some q)
    : ∃ leaf ∈ c.tree.leaves, compare leaf.key q.key = .eq
        ∧ ∃ x ∈ leaf.standings, x.entry.record = record := by
  obtain ⟨x, stands, rfl⟩ := h.standing?_of_live live
  obtain ⟨_, slot, found, _⟩ := standing?_eq_some_iff.mp stands
  obtain ⟨leaf, member, here, there, own⟩ := h.tree.slot?_eq_some_iff.mp found
  exact ⟨leaf, member, OrientedCmp.eq_symm here, _, List.mem_map_of_mem there, own⟩

/-- What stands in a leaf stands at the position of its record. -/
theorem compare_of_mem_leaf (h : c.Coherent) {leaf : Leaf K V} (member : leaf ∈ c.tree.leaves)
    {x : Standing K V} (there : x ∈ leaf.standings) {q : Position K}
    (live : c.locator.live? x.entry.record = some q)
    : x.position.compare .ascending q = .eq := by
  have settled := (h.settled (List.mem_flatMap.mpr ⟨leaf, member, there⟩)).2
  rwa [settle, live] at settled

/-- A live record beyond the position to resume after is due once in the leaf of its key, and in no
other leaf.
-/
theorem count_due (h : c.Coherent) {leaf : Leaf K V} (member : leaf ∈ c.tree.leaves)
    {record : RecordKey} {q : Position K} (live : c.locator.live? record = some q)
    {direction : Direction} {resume : Option (Position K)}
    (beyond : q.isBeyond direction resume = true)
    : ((leaf.due direction resume).map (·.entry.record)).count record
      = if compare leaf.key q.key = .eq then 1 else 0 := by
  have single : ((leaf.due direction resume).map (·.entry.record)).Nodup := by
    have slots : (leaf.standings.map (·.entry.record)).Nodup := by
      have distinct := (h.tree.buckets leaf member).single
      simpa [Leaf.standings, Function.comp_def] using distinct
    exact ((direction.arrange_perm _).map _).nodup_iff.mpr ((List.filter_sublist.map _).nodup slots)
  rw [single.count]
  congr 1
  rw [eq_iff_iff, List.mem_map]
  constructor
  · rintro ⟨x, due, rfl⟩
    have there := (List.mem_filter.mp ((Direction.mem_arrange _).mp due)).1
    rw [← Leaf.key_of_mem_standings there]
    exact ((Position.compare_eq_iff _).mp (h.compare_of_mem_leaf member there live)).1
  · intro here
    obtain ⟨own, found, atKey, x, there, rfl⟩ := h.exists_leaf live
    obtain rfl := h.tree.eq_of_compare_eq member found
      (TransCmp.eq_trans here (OrientedCmp.eq_symm atKey))
    refine ⟨x, (Direction.mem_arrange _).mpr (List.mem_filter.mpr ⟨there, ?_⟩), rfl⟩
    have same := h.compare_of_mem_leaf member there live
    rw [Position.isBeyond_congr (Position.compare_eq_of_eq direction same)]
    exact beyond

/-! ## Selections -/

variable {d : Descriptor K}

/-- A selection consists of what stands under the keys of a range. -/
theorem mem_selection_iff (h : c.Coherent) {x : Standing K V}
    : x ∈ c.selection d
      ↔ c.standing? x.entry.record = some x ∧ d.contains x.position.key = true := by
  rw [selection, Direction.mem_arrange, List.mem_filter, h.mem_standings_iff]

/-- A selection advances strictly in its direction. -/
theorem sorted_selection (h : c.Coherent)
    : (c.selection d).Pairwise fun a b => a.position.compare d.direction b.position = .lt := by
  have sorted := h.sorted_settled
  rw [← h.standings_eq] at sorted
  unfold selection
  cases d.direction with
  | ascending => exact sorted.filter _
  | descending => exact List.pairwise_reverse.mpr (sorted.filter _)

/-- No record is selected twice. -/
theorem single_selection (h : c.Coherent) : ((c.selection d).map (·.entry.record)).Nodup := by
  have single := (List.filter_sublist (p := fun x => d.contains x.position.key)
    (l := c.standings)).map (·.entry.record) |>.nodup h.single_standings
  exact ((d.direction.arrange_perm _).map _).nodup_iff.mpr single

theorem mem_remaining_iff (h : c.Coherent) {resume : Option (Position K)} {x : Standing K V}
    : x ∈ c.remaining d resume
      ↔ c.standing? x.entry.record = some x ∧ d.contains x.position.key = true
        ∧ x.position.isBeyond d.direction resume = true := by
  rw [remaining, List.mem_filter, h.mem_selection_iff, and_assoc]

theorem sorted_remaining (h : c.Coherent) (resume : Option (Position K))
    : (c.remaining d resume).Pairwise fun a b =>
        a.position.compare d.direction b.position = .lt :=
  h.sorted_selection.filter _

theorem single_remaining (h : c.Coherent) (resume : Option (Position K))
    : ((c.remaining d resume).map (·.entry.record)).Nodup :=
  (List.filter_sublist.map _).nodup h.single_selection

/-- A record that lives in a range, beyond the position to resume after, is among what remains. -/
theorem exists_remaining (h : c.Coherent) {resume : Option (Position K)} {record : RecordKey}
    {p q : Position K} (live : c.locator.live? record = some q)
    (same : p.compare .ascending q = .eq) (inside : d.contains p.key = true)
    (beyond : p.isBeyond d.direction resume = true)
    : ∃ x ∈ c.remaining d resume, x.entry.record = record ∧ x.position = q := by
  obtain ⟨x, stands, rfl⟩ := h.standing?_of_live live
  have own := h.record_of_standing? stands
  refine ⟨x, h.mem_remaining_iff.mpr ⟨own ▸ stands, ?_, ?_⟩, own, rfl⟩
  · rw [← d.contains_congr ((Position.compare_eq_iff _).mp same).1]
    exact inside
  · rw [← Position.isBeyond_congr (Position.compare_eq_of_eq _ same)]
    exact beyond

/-- The cursor of a selected entry stands for its position. -/
theorem resolve_selected (h : c.Coherent) {x : Standing K V} (member : x ∈ c.selection d)
    : c.locator.resolve x.entry.cursor = some (.live x.position) :=
  resolve_of_standing? (h.mem_selection_iff.mp member).1

/-- What a test of positions lets through of a range in the tree, it lets through of the selection.
The positions in the tree may be spelled with other keys, which the test must not tell apart.
-/
theorem map_entry_selection (h : c.Coherent) (d : Descriptor K) (test : Position K → Bool)
    (congr : ∀ a b, a.compare .ascending b = .eq → test a = test b)
    : ((d.direction.arrange (c.tree.standings.filter fun x => d.contains x.position.key)).filter
          fun x => test x.position).map (·.entry)
      = ((c.selection d).filter fun x => test x.position).map (·.entry) := by
  have settled : c.tree.standings.filter (fun x => test x.position && d.contains x.position.key)
      = c.tree.standings.filter fun x =>
          test (c.settle x).position && d.contains (c.settle x).position.key := by
    refine List.filter_congr fun x member => ?_
    have same := (h.settled member).2
    rw [congr _ _ same, d.contains_congr ((Position.compare_eq_iff _).mp same).1]
  rw [selection, h.standings_eq, ← Direction.arrange_filter, ← Direction.arrange_filter,
    List.filter_filter, List.filter_filter, settled, List.filter_map, Direction.arrange_map,
    List.map_map]
  rfl

end Coherent

end PagedIndex.Contents
