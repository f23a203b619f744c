import PagedIndex.Locator
import PagedIndex.Proofs.Table

/-! What placing and retiring a record do to the positions that a locator gives. Forgetting can
only take retired positions away, so every retired position is an old one or the one just left.
-/

namespace PagedIndex.Locator

variable {l : Locator K}

@[simp] theorem live?_empty (capacity : Nat) (record : RecordKey)
    : (empty capacity : Locator K).live? record = none := rfl

@[simp] theorem live?_cleared (l : Locator K) (record : RecordKey)
    : l.cleared.live? record = none := rfl

theorem live?_place (l : Locator K) (record : RecordKey) (p : Position K) (other : RecordKey)
    : (l.place record p).live? other = if other = record then some p else l.live? other :=
  l.live.get?_set record other p

theorem retired?_place (l : Locator K) (record : RecordKey) (p : Position K) (other : RecordKey)
    : (l.place record p).retired.get? other
      = if other = record then none else l.retired.get? other :=
  l.retired.get?_erase record other

/-- A retired record is not live any more, and the other live records stay where they are. -/
theorem live?_retire (l : Locator K) (record other : RecordKey)
    : (l.retire record).live? other = if other = record then none else l.live? other := by
  unfold retire live?
  cases found : l.live.get? record with
  | none =>
      by_cases same : other = record
      · simp only [same, found, if_true]
      · simp only [same, if_false]
  | some p =>
      simp only
      split <;> exact l.live.get?_erase record other

/-- Forgetting only takes retirements away. -/
theorem evict_retired {capacity : Nat} {retired : Table RecordKey (Retirement K)}
    {queue : List (RecordKey × Nat)} {record : RecordKey} {r : Retirement K}
    (kept : (evict capacity retired queue).1.get? record = some r)
    : retired.get? record = some r := by
  induction queue generalizing retired with
  | nil => exact kept
  | cons place rest ih =>
      unfold evict at kept
      split at kept
      · exact kept
      · -- The first place is dropped, and its record with it if the place still counts.
        have earlier := ih kept
        split at earlier
        · rw [Table.get?_erase] at earlier
          split at earlier
          · contradiction
          · exact earlier
        · exact earlier

/-- A retirement is an old one or that of the record just retired, at the position it left. -/
theorem retired_retire {record other : RecordKey} {r : Retirement K}
    (found : (l.retire record).retired.get? other = some r)
    : l.retired.get? other = some r
      ∨ (other = record ∧ l.live? record = some r.position) := by
  unfold retire at found
  cases here : l.live.get? record with
  | none => exact Or.inl (by simpa [here] using found)
  | some p =>
      simp only [here] at found
      split at found
      · exact Or.inl found
      · have kept := evict_retired found
        rw [Table.get?_set] at kept
        split at kept
        next same =>
          obtain rfl := Option.some.inj kept
          exact Or.inr ⟨same, here⟩
        next => exact Or.inl kept

theorem keyed_place (h : l.live.Keyed) (record : RecordKey) (p : Position K)
    : (l.place record p).live.Keyed :=
  h.set record p

theorem keyed_retire (h : l.live.Keyed) (record : RecordKey) : (l.retire record).live.Keyed := by
  unfold retire
  cases l.live.get? record with
  | none => exact h
  | some p =>
      simp only
      split <;> exact h.erase record

end PagedIndex.Locator
