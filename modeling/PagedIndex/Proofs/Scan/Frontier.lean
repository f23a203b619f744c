import PagedIndex.Proofs.Scan.Draining

/-! Scans that follow the index. Between two pulls anything may become of the index, so what such a
scan goes by is its frontier alone: a pull meets the first leaf at or beyond the frontier that is
due anything at that moment, and moves the frontier just past it.
-/

namespace PagedIndex

open Std

/-- A group has what a reader is due of its bucket, as the bucket is in a tree. -/
def Group.HasDue [Ord K] (g : Group K V) (t : Tree K V) (direction : Direction)
    (resume : Option (Position K))
    : Prop :=
  g.pending ≠ [] ∧ ∃ leaf, t.leaf? g.key = some leaf
    ∧ g.pending = (leaf.due direction resume).map (·.entry)

namespace Scan

variable [Ord K] {s : Scan K V} {d : Descriptor K} {resume : Option (Position K)} {t : Tree K V}

/-- A scan that has yielded a group has come just past it and needs no position any more. -/
theorem advance_some {leaves : List (Leaf K V)} {group : Group K V} {later : Scan K V}
    (pulled : s.advance leaves = (some group, later))
    : later = { s with frontier := some (.excluded group.key), resume := none } := by
  induction leaves generalizing s with
  | nil => simp [advance] at pulled
  | cons leaf rest ih =>
      unfold advance at pulled
      split at pulled
      · simp at pulled
      · split at pulled
        · exact ih (s := s.passed leaf) pulled
        · obtain ⟨same, rfl⟩ := Prod.mk.inj pulled
          obtain rfl := Option.some.inj same
          rfl

/-- A scan that has yielded none is done. -/
theorem done_advance {leaves : List (Leaf K V)} (dry : (s.advance leaves).1 = none)
    : (s.advance leaves).2.done = true := by
  induction leaves generalizing s with
  | nil => rfl
  | cons leaf rest ih =>
      unfold advance at dry ⊢
      split at dry
      next past => rw [if_pos past]
      next inside =>
        rw [if_neg inside]
        split at dry
        next nothing =>
          rw [if_pos nothing]
          exact ih dry
        next => contradiction

theorem start_descriptor (view : View K V) (d : Descriptor K) (resume : Option (Position K))
    : (start view d resume).descriptor = d := rfl

/-- A scan still gets to a key. -/
def awaits (s : Scan K V) (key : K) : Bool :=
  !s.done && s.descriptor.direction.reaches s.frontier key

theorem awaits_iff {key : K}
    : s.awaits key = true
      ↔ s.done = false ∧ s.descriptor.direction.reaches s.frontier key = true := by
  simp [awaits]

/-- A scan follows the index through a range, resuming after a position. It may have forgotten the
position, but only once that makes no difference to what it still gets to.
-/
structure Follows (s : Scan K V) (d : Descriptor K) (resume : Option (Position K)) : Prop where
  reading : s.done = false → s.view = .live ∧ s.descriptor = d
  entered : ∀ key, s.awaits key = true → d.direction.reaches d.nearEnd key = true
  further
    : ∀ p, s.resume = some p → ∀ key, s.awaits key = true
        → (d.direction.compare p.key key).isLE = true
  due
    : ∀ leaf : Leaf K V, s.awaits leaf.key = true
        → leaf.due d.direction s.resume = leaf.due d.direction resume

/-- The leaves that a scan still gets to and that are due anything, in the order of its range. -/
def toMeet (t : Tree K V) (d : Descriptor K) (resume : Option (Position K)) (s : Scan K V)
    : List (Leaf K V) :=
  (d.direction.arrange t.leaves).filter fun leaf =>
    s.awaits leaf.key && d.contains leaf.key && !(leaf.due d.direction resume).isEmpty

theorem mem_toMeet_iff {leaf : Leaf K V}
    : leaf ∈ s.toMeet t d resume
      ↔ leaf ∈ t.leaves ∧ s.awaits leaf.key = true ∧ d.contains leaf.key = true
        ∧ leaf.due d.direction resume ≠ [] := by
  simp [toMeet, and_assoc]

theorem of_toMeet_eq_cons {leaf : Leaf K V} {rest : List (Leaf K V)}
    (left : s.toMeet t d resume = leaf :: rest)
    : leaf ∈ t.leaves ∧ s.awaits leaf.key = true ∧ d.contains leaf.key = true
        ∧ leaf.due d.direction resume ≠ [] :=
  mem_toMeet_iff.mp (left ▸ List.mem_cons_self)

theorem sorted_toMeet (s : Scan K V) (d : Descriptor K) (resume : Option (Position K))
    (ordered : t.Ordered)
    : (s.toMeet t d resume).Pairwise fun a b => d.direction.compare a.key b.key = .lt :=
  (Direction.pairwise_arrange _ ordered.sorted).filter _

/-- A scan that is done gets nowhere, whatever it was for. -/
theorem follows_of_done (done : s.done = true) : s.Follows d resume := by
  constructor <;> simp [awaits, done]

variable [TransOrd K]

theorem awaits_congr (s : Scan K V) {a b : K} (same : compare a b = .eq)
    : s.awaits a = s.awaits b := by
  rw [awaits, awaits, Direction.reaches_congr _ same]

theorem follows_start (d : Descriptor K) (resume : Option (Position K))
    : (start (.live : View K V) d resume).Follows d resume where
  reading _ := ⟨rfl, rfl⟩
  entered key awaited := by
    have reached := (awaits_iff.mp awaited).2
    rw [start_descriptor, reaches_start, Bool.and_eq_true] at reached
    exact reached.1
  further p here key awaited := by
    cases here
    have reached := (awaits_iff.mp awaited).2
    rw [start_descriptor, reaches_start, Bool.and_eq_true] at reached
    exact reached.2
  due leaf _ := rfl

/-- At its start a scan gets to everything in its range beyond the position to resume after. -/
theorem awaits_start (possible : d.isEmptyRange = false) {p : Position K}
    (inside : d.contains p.key = true) (beyond : p.isBeyond d.direction resume = true)
    : (start (.live : View K V) d resume).awaits p.key = true := by
  rw [d.contains_eq_near_far, Bool.and_eq_true] at inside
  refine awaits_iff.mpr ⟨possible, ?_⟩
  rw [start_descriptor, reaches_start, inside.1, Bool.true_and]
  cases resume with
  | none => rfl
  | some last =>
      rw [Position.isBeyond_some_iff] at beyond
      exact Position.isLE_key beyond

namespace Follows

omit [TransOrd K] in
theorem ahead_eq (h : s.Follows d resume) (more : s.done = false) (t : Tree K V)
    : s.ahead t = (d.direction.arrange t.leaves).filter fun leaf => s.awaits leaf.key := by
  obtain ⟨view, rfl⟩ := h.reading more
  simp [Scan.ahead, awaits, more, view, View.tree, Tree.ahead, Direction.arrange_filter]

/-- What a scan that follows the index has left are the groups of the leaves it still gets to. -/
theorem groups_eq (h : s.Follows d resume) (ordered : t.Ordered)
    : s.groups t = (s.toMeet t d resume).map (groupDue d.direction resume) := by
  cases more : s.done with
  | true => simp [groups, Scan.ahead, groupsOf, toMeet, awaits, more]
  | false =>
      have ahead := h.ahead_eq more t
      obtain ⟨view, rfl⟩ := h.reading more
      have read : (s.view.tree t).Ordered := by rwa [view, View.tree]
      have gotTo : ∀ leaf ∈ s.ahead t, leaf ∈ t.leaves ∧ s.awaits leaf.key = true := by
        simp [ahead]
      rw [groups, groupsOf_eq s (sorted_ahead read)
        (fun leaf member => ordered.buckets leaf (gotTo leaf member).1)
        (fun p here leaf member => h.further p here leaf.key (gotTo leaf member).2)]
      have remembered : ∀ leaf ∈ (s.ahead t).filter fun leaf => !s.descriptor.isPastFarEnd leaf.key,
          groupDue s.descriptor.direction s.resume leaf
            = groupDue s.descriptor.direction resume leaf := by
        intro leaf member
        rw [groupDue, h.due leaf (gotTo leaf (List.mem_filter.mp member).1).2, groupDue]
      rw [List.map_congr_left remembered, List.filter_map, List.filter_filter, ahead,
        List.filter_filter, toMeet]
      congr 1
      refine List.filter_congr fun leaf _ => ?_
      -- Behind the near end, a key is in the range unless it is past the far end.
      by_cases awaited : s.awaits leaf.key = true
      · rw [s.descriptor.contains_eq_near_far, h.entered leaf.key awaited]
        simp [awaited, groupDue, Bool.and_comm]
      · simp [awaited]

/-- A pull ends the scan if it gets to no leaf, and else meets the first leaf and passes it. -/
theorem next_cases (h : s.Follows d resume) (ordered : t.Ordered)
    : (s.toMeet t d resume = [] ∧ (s.next t).1 = none ∧ (s.next t).2.done = true)
      ∨ ∃ leaf rest, s.toMeet t d resume = leaf :: rest
          ∧ s.next t = (some (groupDue d.direction resume leaf), s.passed leaf) := by
  have first : (s.next t).1
      = (s.toMeet t d resume).head?.map (groupDue d.direction resume) := by
    cases more : s.done with
    | true =>
        have nowhere : s.toMeet t d resume = [] := by simp [toMeet, awaits, more]
        rw [nowhere]
        simp [Scan.next, Scan.ahead, advance, more]
    | false =>
        have read : (s.view.tree t).Ordered := by rwa [(h.reading more).1, View.tree]
        rw [(next_eq read).1, h.groups_eq ordered, List.head?_map]
  cases left : s.toMeet t d resume with
  | nil =>
      rw [left] at first
      exact Or.inl ⟨rfl, first, done_advance first⟩
  | cons leaf rest =>
      rw [left] at first
      have pulled : s.next t = (some (groupDue d.direction resume leaf), (s.next t).2) :=
        Prod.ext first rfl
      refine Or.inr ⟨leaf, rest, rfl, ?_⟩
      rw [pulled, advance_some pulled]
      rfl

/-- Past a leaf, a scan only gets to keys beyond it. -/
theorem of_awaits_passed (h : s.Follows d resume) {leaf : Leaf K V}
    (awaited : s.awaits leaf.key = true) {key : K} (later : (s.passed leaf).awaits key = true)
    : d.direction.compare leaf.key key = .lt ∧ s.awaits key = true := by
  obtain ⟨more, reached⟩ := awaits_iff.mp awaited
  have beyond := (awaits_iff.mp later).2
  refine ⟨?_, awaits_iff.mpr ⟨more, Direction.reaches_of_reaches_excluded _ reached beyond⟩⟩
  rw [← (h.reading more).2]
  exact (Direction.reaches_excluded_iff _ _ _).mp beyond

/-- Past a leaf, a scan follows the index as before. -/
theorem passed (h : s.Follows d resume) {leaf : Leaf K V} (awaited : s.awaits leaf.key = true)
    : (s.passed leaf).Follows d resume := by
  refine ⟨h.reading, fun key later => ?_, fun p here => ?_, fun other later => ?_⟩
  · exact h.entered key (h.of_awaits_passed awaited later).2
  · simp [Scan.passed] at here
  · obtain ⟨beyond, still⟩ := h.of_awaits_passed awaited later
    rw [← h.due other still]
    cases here : s.resume with
    | none => rfl
    | some p =>
        have further := TransCmp.lt_of_isLE_of_lt (h.further p here leaf.key awaited) beyond
        exact (Leaf.due_of_lt further).symm

/-- Past the first leaf it gets to, a scan still gets to the others. -/
theorem toMeet_passed (h : s.Follows d resume) (ordered : t.Ordered) {leaf : Leaf K V}
    {rest : List (Leaf K V)} (left : s.toMeet t d resume = leaf :: rest)
    : (s.passed leaf).toMeet t d resume = rest := by
  obtain ⟨more, reached⟩ := awaits_iff.mp (of_toMeet_eq_cons left).2.1
  obtain rfl := (h.reading more).2
  have narrower : (s.passed leaf).toMeet t s.descriptor resume
      = (s.toMeet t s.descriptor resume).filter fun other =>
          s.descriptor.direction.reaches (some (.excluded leaf.key)) other.key := by
    rw [toMeet, toMeet, List.filter_filter]
    refine List.filter_congr fun other _ => ?_
    have onward := s.descriptor.direction.reaches_of_reaches_excluded (b := other.key) reached
    by_cases beyond : s.descriptor.direction.reaches (some (.excluded leaf.key)) other.key = true
    · simp [Scan.passed, awaits, more, beyond, onward beyond]
    · simp [Scan.passed, awaits, beyond]
  rw [narrower, left]
  exact filter_excluded (left ▸ s.sorted_toMeet s.descriptor resume ordered)

theorem next (h : s.Follows d resume) (ordered : t.Ordered) : (s.next t).2.Follows d resume := by
  rcases h.next_cases ordered with ⟨_, _, done⟩ | ⟨leaf, rest, left, pulled⟩
  · exact follows_of_done done
  · rw [pulled]
    exact h.passed (of_toMeet_eq_cons left).2.1

/-- A group that a scan yields is one it was still to get to, and has what is due of its bucket. -/
theorem of_yield (h : s.Follows d resume) (ordered : t.Ordered) {group : Group K V}
    (pulled : (s.next t).1 = some group)
    : s.awaits group.key = true ∧ d.contains group.key = true
      ∧ group.HasDue t d.direction resume := by
  rcases h.next_cases ordered with ⟨_, dry, _⟩ | ⟨leaf, rest, left, outcome⟩
  · rw [dry] at pulled
    contradiction
  · rw [outcome] at pulled
    obtain rfl := Option.some.inj pulled
    obtain ⟨member, awaited, inside, due⟩ := of_toMeet_eq_cons left
    refine ⟨awaited, inside, ?_, leaf, ordered.leaf?_of_mem member, rfl⟩
    simpa [groupDue] using due

/-- What a scan still gets to after a pull lies beyond the group it has yielded. -/
theorem of_awaits_next (h : s.Follows d resume) (ordered : t.Ordered) {key : K}
    (later : (s.next t).2.awaits key = true)
    : s.awaits key = true
      ∧ ∃ group, (s.next t).1 = some group ∧ d.direction.compare group.key key = .lt := by
  rcases h.next_cases ordered with ⟨_, _, done⟩ | ⟨leaf, rest, left, outcome⟩
  · simp [awaits, done] at later
  · rw [outcome] at later ⊢
    obtain ⟨beyond, before⟩ := h.of_awaits_passed (of_toMeet_eq_cons left).2.1 later
    exact ⟨before, _, rfl, beyond⟩

end Follows

end Scan

end PagedIndex
