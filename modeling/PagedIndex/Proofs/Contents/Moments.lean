import PagedIndex.Proofs.Contents.Runs

/-! Cursors over runs of writes. A write retires a record only at the position where the record
lived, so a record that lives nowhere but at one position is found there by its cursor, alive or
gone, for as long as it is found at all.
-/

namespace PagedIndex.Contents

open Std

variable [Ord K] {c : Contents K V} {record : RecordKey} {p : Position K}

/-- Some contents and those after each of a run of writes. -/
def moments (c : Contents K V) : List (Write K V) → List (Contents K V)
  | [] => [c]
  | w :: rest => c :: (c.perform w).moments rest

/-- In none of some contents a record lives anywhere but at a position. -/
def LivesOnlyAt (moments : List (Contents K V)) (record : RecordKey) (p : Position K) : Prop :=
  ∀ m ∈ moments, ∀ q ∈ m.locator.live? record, p.compare .ascending q = .eq

instance (moments : List (Contents K V)) (record : RecordKey) (p : Position K)
    : Decidable (LivesOnlyAt moments record p) :=
  inferInstanceAs (Decidable (∀ m ∈ moments, ∀ q ∈ m.locator.live? record, _))

theorem first_mem_moments (c : Contents K V) (writes : List (Write K V))
    : c ∈ c.moments writes := by
  cases writes <;> simp [moments]

theorem last_mem_moments (c : Contents K V) (writes : List (Write K V))
    : c.performAll writes ∈ c.moments writes := by
  induction writes generalizing c with
  | nil => exact List.mem_singleton_self c
  | cons w rest ih => exact List.mem_cons_of_mem _ (ih (c.perform w))

theorem retired_unlink {key : K} {other : RecordKey} {r : Retirement K}
    (found : (c.apply (.unlink key other)).locator.retired.get? record = some r)
    : c.locator.retired.get? record = some r ∨ c.locator.live? record = some r.position := by
  rcases Locator.retired_retire found with old | ⟨rfl, lived⟩
  · exact Or.inl old
  · exact Or.inr lived

theorem retired_link {key : K} {entry : Entry V} {r : Retirement K}
    (found : (c.apply (.link key entry)).locator.retired.get? record = some r)
    : c.locator.retired.get? record = some r := by
  simp only [apply, Locator.retired?_place] at found
  split at found
  · contradiction
  · exact found

/-- What is retired after a plan was retired before it or lived at its position before it: plans
unlink before they link.
-/
theorem PlanShape.retired {changes : List (Change K V)} (shape : c.PlanShape changes)
    {r : Retirement K} (found : (c.applyAll changes).locator.retired.get? record = some r)
    : c.locator.retired.get? record = some r ∨ c.locator.live? record = some r.position := by
  cases shape with
  | nothing => exact Or.inl found
  | miss _ => exact Or.inl found
  | unlink held => exact retired_unlink found
  | link settled => exact Or.inl (retired_link found)
  | move held => exact retired_unlink (retired_link found)

namespace Coherent

variable [TransOrd K]

theorem retired_perform (h : c.Coherent) {w : Write K V} {r : Retirement K}
    (found : (c.perform w).locator.retired.get? record = some r)
    : c.locator.retired.get? record = some r ∨ c.locator.live? record = some r.position := by
  rw [perform_eq] at found
  split at found
  · contradiction
  · exact (h.planShape w).retired found

/-- A record that lives only at a position is retired only there, by induction over the writes. -/
theorem retired_performAll (h : c.Coherent) {writes : List (Write K V)}
    (only : LivesOnlyAt (c.moments writes) record p)
    (before : ∀ r ∈ c.locator.retired.get? record, p.compare .ascending r.position = .eq)
    : ∀ r ∈ (c.performAll writes).locator.retired.get? record,
        p.compare .ascending r.position = .eq := by
  induction writes generalizing c with
  | nil => exact before
  | cons w rest ih =>
      refine ih (h.perform w) (fun m later => only m (List.mem_cons_of_mem _ later)) ?_
      intro r found
      rcases h.retired_perform found with old | lived
      · exact before r old
      · exact only c (by simp [moments]) r.position lived

/-- After writes that leave a record at its position or without one, its cursor stands for that
position if it stands for any.
-/
theorem resolve_performAll (h : c.Coherent) {writes : List (Write K V)}
    (live : c.locator.live? record = some p) (only : LivesOnlyAt (c.moments writes) record p)
    {r : Resolution K} (resolved : (c.performAll writes).locator.resolve ⟨record⟩ = some r)
    : p.compare .ascending r.position = .eq := by
  have gone := h.retired_performAll only (by simp [h.notBoth record p live])
  unfold Locator.resolve at resolved
  split at resolved
  next q lives =>
    obtain rfl := Option.some.inj resolved
    exact only _ (c.last_mem_moments writes) q lives
  next =>
    obtain ⟨retirement, found, rfl⟩ := Option.map_eq_some_iff.mp resolved
    exact gone retirement found

end Coherent

end PagedIndex.Contents
