import PagedIndex.Proofs.Locator.Remembered

/-! Archives: what a locator answers, said without a queue. An archive has the records that are live
and a plain list of the removed ones, in the order of their latest retirements. A locator answers
like an archive to which the same has happened, though its queue also holds places that no longer
count; of these there are never more than fit into twice the capacity.
-/

namespace PagedIndex

/-- The live records and the removed ones that are remembered. -/
structure Archive (K : Type u) where
  /-- How many removed records are remembered. -/
  capacity : Nat
  live? : RecordKey → Option (Position K)
  /-- Removed records where each stood, the earliest retirement first. -/
  retired : List (RecordKey × Position K)

namespace Archive

def empty (capacity : Nat) : Archive K := { capacity, live? := fun _ => none, retired := [] }

/-- A record is live at a position from now on, and is no removed one any more. -/
def place (a : Archive K) (record : RecordKey) (p : Position K) : Archive K :=
  { a with
    live? := fun other => if other = record then some p else a.live? other
    retired := a.retired.filter (·.1 != record) }

/-- A live record goes to the end of the list, from whose front as many are dropped as are too many.
A record that is not live is left alone.
-/
def retire (a : Archive K) (record : RecordKey) : Archive K :=
  match a.live? record with
  | none => a
  | some p =>
    let retired := a.retired ++ [(record, p)]
    { a with
      live? := fun other => if other = record then none else a.live? other
      retired := retired.drop (retired.length - a.capacity) }

def cleared (a : Archive K) : Archive K := empty a.capacity

def resolve (a : Archive K) (cursor : Cursor) : Option (Resolution K) :=
  match a.live? cursor.record with
  | some p => some (.live p)
  | none => (a.retired.find? (·.1 == cursor.record)).map fun x => .retired x.2

end Archive

namespace Locator

/-- What can happen to the records that a locator knows. -/
inductive Occurrence (K : Type u) where
  | placed (record : RecordKey) (p : Position K)
  | retired (record : RecordKey)
  | cleared
deriving DecidableEq, Repr

def undergo (l : Locator K) : Occurrence K → Locator K
  | .placed record p => l.place record p
  | .retired record => l.retire record
  | .cleared => l.cleared

/-- The locator after some occurrences, one after the other. -/
def undergoAll (l : Locator K) (occurrences : List (Occurrence K)) : Locator K :=
  occurrences.foldl undergo l

end Locator

namespace Archive

def undergo (a : Archive K) : Locator.Occurrence K → Archive K
  | .placed record p => a.place record p
  | .retired record => a.retire record
  | .cleared => a.cleared

def undergoAll (a : Archive K) (occurrences : List (Locator.Occurrence K)) : Archive K :=
  occurrences.foldl undergo a

end Archive

namespace Locator

variable {l : Locator K} {a : Archive K}

/-! ## The queue stays short -/

/-- The queue has at most as many places as may wait in it, or as records may be remembered. -/
def Short (l : Locator K) : Prop := l.queue.length ≤ max l.capacity (queueLimit l.capacity)

/-- The places that count are as many as the retirements they stand for. -/
theorem length_filter_isCurrent (retired : Table RecordKey (Retirement K))
    (queue : List (RecordKey × Nat))
    : (queue.filter (isCurrent retired)).length = (recalled retired queue).length := by
  rw [recalled, List.length_filterMap_eq_countP, List.countP_eq_length_filter]
  congr 2
  funext place
  exact isCurrent_eq retired place

/-- A retirement leaves the queue as it was, or within its limit, or with none but places that
count.
-/
theorem queue_retire_cases (l : Locator K) (record : RecordKey)
    : (l.retire record).queue = l.queue
      ∨ (l.retire record).queue.length ≤ queueLimit l.capacity
      ∨ ∀ place ∈ (l.retire record).queue, isCurrent (l.retire record).retired place = true := by
  unfold retire
  split
  next => exact Or.inl rfl
  next =>
    simp only
    split
    next => exact Or.inl rfl
    next =>
      right
      split
      next => exact Or.inr fun place member => (List.mem_filter.mp member).2
      next fits => exact Or.inl (Nat.le_of_not_lt fits)

theorem Short.retire (short : l.Short) (sound : l.Sound) (record : RecordKey)
    : (l.retire record).Short := by
  rw [Short, capacity_retire]
  rcases l.queue_retire_cases record with same | within | counting
  · rw [same]
    exact short
  · exact Nat.le_trans within (Nat.le_max_right _ _)
  · -- Places that all count are as many as the records that are remembered.
    have all := length_filter_isCurrent (l.retire record).retired (l.retire record).queue
    rw [List.filter_eq_self.mpr counting] at all
    have few := (sound.retire record).length_remembered_le
    rw [remembered, ← all, capacity_retire] at few
    exact Nat.le_trans few (Nat.le_max_left _ _)

/-! ## Locators answer like archives -/

/-- A locator knows what an archive holds. -/
structure Represents (l : Locator K) (a : Archive K) : Prop where
  sound : l.Sound
  short : l.Short
  capacity : l.capacity = a.capacity
  live : ∀ record, l.live? record = a.live? record
  retired : l.remembered = a.retired

/-- What both are asked gets the same answers. -/
structure Answers (l : Locator K) (a : Archive K) : Prop where
  live : ∀ record, l.live? record = a.live? record
  resolve : ∀ cursor, l.resolve cursor = a.resolve cursor
  retiredCount : l.retiredCount = a.retired.length

theorem represents_empty (capacity : Nat)
    : (empty capacity : Locator K).Represents (.empty capacity) where
  sound := sound_empty capacity
  short := Nat.zero_le _
  capacity := rfl
  live := fun _ => rfl
  retired := rfl

namespace Represents

theorem place (h : l.Represents a) (record : RecordKey) (p : Position K)
    : (l.place record p).Represents (a.place record p) where
  sound := h.sound.place record p
  short := h.short
  capacity := h.capacity
  live := by
    intro other
    rw [live?_place, h.live]
    rfl
  retired := by
    rw [remembered_place, h.retired]
    rfl

/-- Retiring a record that is not live changes neither, and else both lists lose the same pairs from
their fronts.
-/
theorem retire (h : l.Represents a) (record : RecordKey)
    : (l.retire record).Represents (a.retire record) := by
  cases live : l.live? record with
  | none =>
      have absent : a.live? record = none := h.live record ▸ live
      rw [retire_of_not_live live, Archive.retire, absent]
      exact h
  | some p =>
      have there : a.live? record = some p := h.live record ▸ live
      have moved : a.retire record
          = { a with
              live? := fun other => if other = record then none else a.live? other
              retired := (a.retired ++ [(record, p)]).drop
                ((a.retired ++ [(record, p)]).length - a.capacity) } := by
        simp only [Archive.retire, there]
      rw [moved]
      refine ⟨h.sound.retire record, h.short.retire h.sound record, ?_, ?_, ?_⟩
      · rw [capacity_retire]
        exact h.capacity
      · intro other
        rw [live?_retire, h.live]
      · rw [(h.sound.remembered_retire live).2, h.retired, h.capacity, List.length_append,
          List.length_singleton]

theorem cleared (h : l.Represents a) : l.cleared.Represents a.cleared where
  sound := l.sound_cleared
  short := Nat.zero_le _
  capacity := h.capacity
  live := fun _ => rfl
  retired := rfl

theorem undergo (h : l.Represents a) (o : Occurrence K)
    : (l.undergo o).Represents (a.undergo o) := by
  cases o with
  | placed record p => exact h.place record p
  | retired record => exact h.retire record
  | cleared => exact h.cleared

/-- Whatever happens to both, a locator goes on knowing what the archive holds, by induction over
the occurrences.
-/
theorem undergoAll (h : l.Represents a) (occurrences : List (Occurrence K))
    : (l.undergoAll occurrences).Represents (a.undergoAll occurrences) := by
  induction occurrences generalizing l a with
  | nil => exact h
  | cons o rest ih => exact ih (h.undergo o)

/-- A cursor is looked up among the live records and then in the list. -/
theorem resolve_eq (h : l.Represents a) (cursor : Cursor)
    : l.resolve cursor = a.resolve cursor := by
  unfold Locator.resolve Archive.resolve
  rw [← h.live, ← h.retired]
  change (match l.live.get? cursor.record with | some p => _ | none => _)
    = match l.live.get? cursor.record with | some p => _ | none => _
  cases l.live.get? cursor.record with
  | some p => rfl
  | none =>
      simp only
      cases found : l.remembered.find? (·.1 == cursor.record) with
      | some x =>
          have same : x.1 = cursor.record := by simpa using List.find?_some found
          have member := List.mem_of_find?_eq_some found
          obtain ⟨stamp, retired⟩ := h.sound.mem_remembered_iff.mp member
          rw [← same, retired]
          rfl
      | none =>
          have forgotten : l.retired.get? cursor.record = none := by
            refine Option.eq_none_iff_forall_ne_some.mpr fun r retired => ?_
            have member : (cursor.record, r.position) ∈ l.remembered :=
              h.sound.mem_remembered_iff.mpr ⟨r.stamp, retired⟩
            simpa using List.find?_eq_none.mp found _ member
          rw [forgotten]
          rfl

theorem answers (h : l.Represents a) : l.Answers a where
  live := h.live
  resolve := h.resolve_eq
  retiredCount := by
    rw [← h.retired, h.sound.length_remembered]
    rfl

end Represents

theorem capacity_undergoAll (l : Locator K) (occurrences : List (Occurrence K))
    : (l.undergoAll occurrences).capacity = l.capacity := by
  induction occurrences generalizing l with
  | nil => rfl
  | cons o rest ih =>
      have step : (l.undergo o).capacity = l.capacity := by
        cases o with
        | placed record p => rfl
        | retired record => exact l.capacity_retire record
        | cleared => rfl
      exact (ih (l.undergo o)).trans step

/-- Whatever happens to an empty locator and to an empty archive of the same capacity, both answer
alike afterwards. The list of the archive has no record twice and no more records than the capacity
allows, and the queue of the locator is at most twice as long as that, within a machine word.
-/
theorem answers_like_archive (capacity : Nat) (occurrences : List (Occurrence K))
    : ((empty capacity).undergoAll occurrences).Answers
        ((Archive.empty capacity).undergoAll occurrences)
      ∧ (((Archive.empty capacity : Archive K).undergoAll occurrences).retired.map (·.1)).Nodup
      ∧ ((empty capacity : Locator K).undergoAll occurrences).retiredCount ≤ capacity
      ∧ (capacity < UInt64.size
        → ((empty capacity : Locator K).undergoAll occurrences).queue.length
          ≤ min (2 * capacity) (UInt64.size - 1)) := by
  have both := (represents_empty (K := K) capacity).undergoAll occurrences
  have same : ((empty capacity : Locator K).undergoAll occurrences).capacity = capacity :=
    capacity_undergoAll _ occurrences
  refine ⟨both.answers, ?_, ?_, ?_⟩
  · rw [← both.retired]
    exact both.sound.queued.single_recalled
  · exact Nat.le_trans both.sound.bounded (Nat.le_of_eq same)
  · intro fits
    have short := both.short
    rw [Short, same, queueLimit] at short
    omega

/-- The first record comes back and is retired again, so it outlives the second one in a memory for
two, though the place of its first retirement waits at the front of the queue.
-/
def afterRevival : List (Occurrence Int) :=
  [.placed ⟨[1]⟩ ⟨5, 1⟩, .retired ⟨[1]⟩, .placed ⟨[1]⟩ ⟨7, 2⟩, .placed ⟨[2]⟩ ⟨5, 3⟩,
    .retired ⟨[2]⟩, .retired ⟨[1]⟩, .placed ⟨[3]⟩ ⟨5, 4⟩, .retired ⟨[3]⟩]

theorem afterRevival_answers
    : 2 < UInt64.size
      ∧ ((empty 2).undergoAll afterRevival).resolve ⟨⟨[1]⟩⟩ = some (.retired ⟨7, 2⟩)
      ∧ ((empty 2).undergoAll afterRevival).resolve ⟨⟨[2]⟩⟩ = none
      ∧ ((empty 2).undergoAll afterRevival).queue.length ≤ 4 := by
  obtain ⟨answers, _, _, short⟩ := answers_like_archive 2 afterRevival
  have fits : 2 < UInt64.size := by decide
  refine ⟨fits, ?_, ?_, Nat.le_trans (short fits) (by decide)⟩
  · rw [answers.resolve]
    decide
  · rw [answers.resolve]
    decide

end Locator

end PagedIndex
