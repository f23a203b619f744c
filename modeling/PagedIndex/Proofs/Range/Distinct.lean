import Mathlib.Data.List.Basic
import PagedIndex.Range.Ordered

/-! The different values of a list. Each value of the list compares as equal to one of them, they
ascend, and so what is sorted falls into one run of items for each of them.
-/

namespace PagedIndex.Ordered

open Std

variable [Ord K] [TransOrd K]

/-! ## Inserting into an ascending list -/

omit [TransOrd K] in
theorem mem_of_mem_insert {a b : K} {ys : List K} (member : b ∈ insert a ys)
    : b = a ∨ b ∈ ys := by
  induction ys with
  | nil => exact Or.inl (List.mem_singleton.mp member)
  | cons head rest ih =>
      unfold insert at member
      split at member
      · exact List.mem_cons.mp member
      · exact (List.mem_cons.mp member).imp_right (List.mem_cons_of_mem _)
      · rcases List.mem_cons.mp member with rfl | later
        · exact Or.inr (by simp)
        · exact (ih later).imp_right (List.mem_cons_of_mem _)

theorem ascending_insert (a : K) {ys : List K}
    (ascending : ys.Pairwise fun x y => compare x y = .lt)
    : (insert a ys).Pairwise fun x y => compare x y = .lt := by
  induction ys with
  | nil => simp [insert]
  | cons head rest ih =>
      obtain ⟨least, tail⟩ := List.pairwise_cons.mp ascending
      unfold insert
      split
      next below =>
        refine List.pairwise_cons.mpr ⟨fun b member => ?_, ascending⟩
        rcases List.mem_cons.mp member with rfl | later
        · exact below
        · exact TransCmp.lt_trans below (least b later)
      next same =>
        refine List.pairwise_cons.mpr ⟨fun b later => ?_, tail⟩
        exact TransCmp.lt_of_eq_of_lt same (least b later)
      next above =>
        refine List.pairwise_cons.mpr ⟨fun b member => ?_, ih tail⟩
        rcases mem_of_mem_insert member with rfl | later
        · exact OrientedCmp.lt_of_gt above
        · exact least b later

/-- An inserted value takes the place of one that equals it, so nothing else is lost. -/
theorem any_insert (a key : K) (ys : List K)
    : (insert a ys).any (fun b => (compare b key).isEq)
      = ((compare a key).isEq || ys.any fun b => (compare b key).isEq) := by
  induction ys with
  | nil => rfl
  | cons head rest ih =>
      unfold insert
      split
      next => rfl
      next same =>
        rw [List.any_cons, List.any_cons, ← TransCmp.congr_left same, ← Bool.or_assoc,
          Bool.or_self]
      next => rw [List.any_cons, List.any_cons, ih, Bool.or_left_comm]

/-! ## Different values -/

theorem ascending_distinct (xs : List K)
    : (distinct xs).Pairwise fun x y => compare x y = .lt := by
  have fold (ys : List K) (ascending : ys.Pairwise fun x y => compare x y = .lt)
      : (xs.foldl (fun ys a => insert a ys) ys).Pairwise fun x y => compare x y = .lt := by
    induction xs generalizing ys with
    | nil => exact ascending
    | cons a rest ih => exact ih _ (ascending_insert a ascending)
  exact fold [] .nil

/-- A key equals one of the different values if and only if it equals a value of the list. -/
theorem any_distinct (xs : List K) (key : K)
    : (distinct xs).any (fun b => (compare b key).isEq)
      = xs.any fun b => (compare b key).isEq := by
  have fold (ys : List K)
      : (xs.foldl (fun ys a => insert a ys) ys).any (fun b => (compare b key).isEq)
        = ((ys.any fun b => (compare b key).isEq) || xs.any fun b => (compare b key).isEq) := by
    induction xs generalizing ys with
    | nil => simp
    | cons a rest ih =>
        rw [List.foldl_cons, ih, any_insert, List.any_cons, Bool.or_left_comm, Bool.or_assoc]
  exact fold []

/-! ## Runs of items -/

/-- If nothing with one property precedes what has another one, either can be picked out first. -/
theorem filter_or_eq_append {p q : α → Bool} {rows : List α}
    (apart : ∀ x ∈ rows, q x = true → p x = false)
    (later : rows.Pairwise fun x y => q x = true → p y = false)
    : rows.filter (fun x => p x || q x) = rows.filter p ++ rows.filter q := by
  induction rows with
  | nil => rfl
  | cons x rest ih =>
      obtain ⟨behind, tail⟩ := List.pairwise_cons.mp later
      have whole := ih (fun y member => apart y (List.mem_cons_of_mem _ member)) tail
      by_cases second : q x = true
      · -- From here on nothing has the first property.
        have none : rest.filter p = [] :=
          List.filter_eq_nil_iff.mpr fun y member => by simp [behind y member second]
        simp [apart x (by simp) second, second, whole, none]
      · by_cases first : p x = true <;> simp [first, second, whole]

/-- Items in the order of their keys that have one of several ascending keys are those with the
first key, then those with the second, and so on.
-/
theorem filter_any_eq_flatMap {f : α → K} {rows : List α} {keys : List K}
    (sorted : rows.Pairwise fun x y => (compare (f x) (f y)).isLE = true)
    (ascending : keys.Pairwise fun x y => compare x y = .lt)
    : rows.filter (fun x => keys.any fun k => (compare k (f x)).isEq)
      = keys.flatMap fun k => rows.filter fun x => (compare k (f x)).isEq := by
  induction keys with
  | nil => simp
  | cons k rest ih =>
      obtain ⟨least, tail⟩ := List.pairwise_cons.mp ascending
      -- What has a later key comes after the first one.
      have beyond {key : K} (found : rest.any (fun other => (compare other key).isEq) = true)
          : compare k key = .lt := by
        obtain ⟨other, member, same⟩ := List.any_eq_true.mp found
        exact TransCmp.lt_of_lt_of_eq (least other member) (by simpa using same)
      rw [List.flatMap_cons, ← ih tail, ← filter_or_eq_append]
      · rfl
      · intro x _ found
        simp [beyond found]
      · refine sorted.imp fun further found => ?_
        simp [TransCmp.lt_of_lt_of_isLE (beyond found) further]

end PagedIndex.Ordered
