import PagedIndex.Position
import PagedIndex.Range.Descriptor

/-! What endpoints let through. A key reaches a starting endpoint at it or beyond it, the stricter
of two endpoints lets through what both do, and a range is what lies between a start that is
reached and an end that is not passed.
-/

namespace PagedIndex

open Std

variable [Ord K] [TransOrd K]

namespace Direction

instance transCmp (direction : Direction) : TransCmp (direction.compare : K → K → Ordering) := by
  cases direction with
  | ascending => exact inferInstanceAs (TransCmp (Ord.compare : K → K → Ordering))
  | descending => exact inferInstanceAs (TransCmp fun a b : K => Ord.compare b a)

/-- Keys that compare as equal do so in both directions. -/
theorem compare_eq_iff (direction : Direction) {a b : K}
    : direction.compare a b = .eq ↔ Ord.compare a b = .eq := by
  cases direction with
  | ascending => exact Iff.rfl
  | descending => exact ⟨OrientedCmp.eq_symm, OrientedCmp.eq_symm⟩

theorem reaches_some_iff (direction : Direction) (e : Endpoint K) (key : K)
    : direction.reaches (some e) key = true
      ↔ direction.compare e.key key = .lt
        ∨ (direction.compare e.key key = .eq ∧ e.inclusive = true) := by
  have swap : direction.compare key e.key = (direction.compare e.key key).swap :=
    OrientedCmp.eq_swap
  simp only [reaches, swap]
  cases direction.compare e.key key <;> simp

/-- An endpoint is reached beyond it, and at it if it belongs to the range. -/
theorem reaches_iff (direction : Direction) (start : Option (Endpoint K)) (key : K)
    : direction.reaches start key = true
      ↔ ∀ e ∈ start, direction.compare e.key key = .lt
          ∨ (direction.compare e.key key = .eq ∧ e.inclusive = true) := by
  cases start with
  | none => simp [reaches]
  | some e => simp [reaches_some_iff]

theorem reaches_included_iff (direction : Direction) (start key : K)
    : direction.reaches (some (.included start)) key = true
      ↔ (direction.compare start key).isLE = true := by
  rw [reaches_some_iff, Ordering.isLE_iff_eq_lt_or_eq_eq]
  simp [Endpoint.included]

theorem reaches_excluded_iff (direction : Direction) (start key : K)
    : direction.reaches (some (.excluded start)) key = true
      ↔ direction.compare start key = .lt := by
  rw [reaches_some_iff]
  simp [Endpoint.excluded]

/-- Whatever lies at or beyond a key that reaches an endpoint reaches it too. -/
theorem reaches_of_isLE (direction : Direction) {start : Option (Endpoint K)} {a b : K}
    (reached : direction.reaches start a = true) (further : (direction.compare a b).isLE = true)
    : direction.reaches start b = true := by
  cases start with
  | none => rfl
  | some e =>
      rw [reaches_some_iff] at reached ⊢
      rcases reached with beyond | ⟨here, inclusive⟩
      · exact Or.inl (TransCmp.lt_of_lt_of_isLE beyond further)
      · rw [TransCmp.congr_left here]
        rcases Ordering.isLE_iff_eq_lt_or_eq_eq.mp further with lt | eq
        · exact Or.inl lt
        · exact Or.inr ⟨eq, inclusive⟩

theorem reaches_congr (direction : Direction) {start : Option (Endpoint K)} {a b : K}
    (same : Ord.compare a b = .eq)
    : direction.reaches start a = direction.reaches start b := by
  cases start with
  | none => rfl
  | some e =>
      have swap := direction.compare_eq_iff.mpr same
      rw [Bool.eq_iff_iff, reaches_some_iff, reaches_some_iff, TransCmp.congr_right swap]

/-- What lies beyond a key that reaches an endpoint reaches it too. -/
theorem reaches_of_reaches_excluded (direction : Direction) {start : Option (Endpoint K)} {a b : K}
    (reached : direction.reaches start a = true)
    (beyond : direction.reaches (some (.excluded a)) b = true)
    : direction.reaches start b = true := by
  rw [reaches_excluded_iff] at beyond
  exact direction.reaches_of_isLE reached (Ordering.isLE_iff_eq_lt_or_eq_eq.mpr (Or.inl beyond))

/-- The stricter of two starting endpoints lets through exactly what both let through. -/
theorem reaches_laterStart_eq (direction : Direction) (a b : Option (Endpoint K)) (key : K)
    : direction.reaches (direction.laterStart a b) key
      = (direction.reaches a key && direction.reaches b key) := by
  have implied {x y : Endpoint K}
      (le : direction.compare y.key x.key = .lt
        ∨ (direction.compare y.key x.key = .eq ∧ (x.inclusive = true → y.inclusive = true)))
      (reached : direction.reaches (some x) key = true)
      : direction.reaches (some y) key = true := by
    rw [reaches_some_iff] at reached ⊢
    rcases le with lt | ⟨eq, weaker⟩
    · rcases reached with beyond | ⟨here, _⟩
      · exact Or.inl (TransCmp.lt_trans lt beyond)
      · exact Or.inl (TransCmp.lt_of_lt_of_eq lt here)
    · rw [TransCmp.congr_left eq]
      exact reached.imp_right (And.imp_right weaker)
  have absorbs {p q : Bool} (imp : p = true → q = true) : p = (p && q) ∧ p = (q && p) := by
    cases p <;> cases q <;> simp_all
  match a, b with
  | none, b => simp [laterStart, reaches]
  | some a, none => simp [laterStart, reaches]
  | some a, some b =>
      simp only [laterStart]
      cases order : direction.compare a.key b.key with
      | gt => exact (absorbs (implied (Or.inl (OrientedCmp.lt_of_gt order)))).1
      | lt => exact (absorbs (implied (Or.inl order))).2
      | eq =>
          by_cases inclusive : a.inclusive = true
          · simp only [inclusive, if_true]
            exact (absorbs (implied (Or.inr ⟨order, fun _ => inclusive⟩))).2
          · simp only [inclusive, if_false, Bool.false_eq_true]
            refine (absorbs (implied (Or.inr ⟨OrientedCmp.eq_symm order, ?_⟩))).1
            exact fun strict => absurd strict inclusive

end Direction

namespace Descriptor

omit [TransOrd K] in
theorem isBelow_eq (d : Descriptor K) (key : K)
    : d.isBelow key = !Direction.ascending.reaches d.lower key := by
  unfold isBelow Direction.reaches Direction.compare
  cases d.lower with
  | none => rfl
  | some e => cases e.inclusive <;> cases order : compare key e.key <;> simp [order]

theorem isAbove_eq (d : Descriptor K) (key : K)
    : d.isAbove key = !Direction.descending.reaches d.upper key := by
  have swap (e : Endpoint K) : compare e.key key = (compare key e.key).swap := OrientedCmp.eq_swap
  unfold isAbove Direction.reaches Direction.compare
  cases d.upper with
  | none => rfl
  | some e => cases e.inclusive <;> cases order : compare key e.key <;> simp [swap, order]

/-- A range consists of the keys that reach its lower end upwards and its upper end downwards. -/
theorem contains_eq (d : Descriptor K) (key : K)
    : d.contains key
      = (Direction.ascending.reaches d.lower key && Direction.descending.reaches d.upper key) := by
  rw [contains, isBelow_eq, isAbove_eq, Bool.not_not, Bool.not_not]

/-- In either direction a range is what reaches the near end and does not pass the far end. -/
theorem contains_eq_near_far (d : Descriptor K) (key : K)
    : d.contains key = (d.direction.reaches d.nearEnd key && !d.isPastFarEnd key) := by
  unfold nearEnd isPastFarEnd
  cases d.direction with
  | ascending => rw [contains, isBelow_eq, Bool.not_not]
  | descending => rw [contains, isAbove_eq, Bool.not_not, Bool.and_comm]

/-- What lies beyond a key past the far end is past it too. -/
theorem isPastFarEnd_of_isLE (d : Descriptor K) {a b : K} (past : d.isPastFarEnd a = true)
    (further : (d.direction.compare a b).isLE = true)
    : d.isPastFarEnd b = true := by
  unfold isPastFarEnd at past ⊢
  cases way : d.direction with
  | ascending =>
      simp only [way, isAbove_eq, Bool.not_eq_true'] at past further ⊢
      refine Bool.eq_false_iff.mpr fun reached => ?_
      simp [Direction.descending.reaches_of_isLE (a := b) (b := a) reached further] at past
  | descending =>
      simp only [way, isBelow_eq, Bool.not_eq_true'] at past further ⊢
      refine Bool.eq_false_iff.mpr fun reached => ?_
      simp [Direction.ascending.reaches_of_isLE (a := b) (b := a) reached further] at past

/-- Keys that compare as equal are in a range together or not at all. -/
theorem contains_congr (d : Descriptor K) {a b : K} (same : compare a b = .eq)
    : d.contains a = d.contains b := by
  have carry {x y : K} (eq : compare x y = .eq) (inside : d.contains x = true)
      : d.contains y = true := by
    rw [contains_eq, Bool.and_eq_true] at inside ⊢
    have near : (Direction.ascending.compare x y).isLE = true := by simp [Direction.compare, eq]
    have far : (Direction.descending.compare x y).isLE = true := by
      simp [Direction.compare, OrientedCmp.eq_symm eq]
    exact ⟨Direction.reaches_of_isLE _ inside.1 near, Direction.reaches_of_isLE _ inside.2 far⟩
  exact Bool.eq_iff_iff.mpr ⟨carry same, carry (OrientedCmp.eq_symm same)⟩

/-- A range whose ends are crossed or shut holds no key. -/
theorem contains_eq_false_of_isEmptyRange (d : Descriptor K) (empty : d.isEmptyRange = true)
    (key : K)
    : d.contains key = false := by
  refine Bool.eq_false_iff.mpr fun inside => ?_
  rw [contains_eq, Bool.and_eq_true] at inside
  unfold isEmptyRange at empty
  split at empty
  next lower upper hl hu =>
    simp only [hl, hu, Direction.reaches_some_iff, Direction.compare] at inside
    obtain ⟨low | ⟨low, lowIn⟩, high | ⟨high, highIn⟩⟩ := inside
    · simp [TransCmp.lt_trans low high] at empty
    · simp [TransCmp.lt_of_lt_of_eq low high] at empty
    · simp [TransCmp.lt_of_eq_of_lt low high] at empty
    · simp [TransCmp.eq_trans low high, lowIn, highIn] at empty
  next => contradiction

end Descriptor

namespace Position

/-- Positions are in a total order, by key and then by number. -/
instance transCmp (direction : Direction)
    : TransCmp (Position.compare direction : Position K → Position K → Ordering) where
  eq_swap := by
    intro a b
    have keys : direction.compare a.key b.key = (direction.compare b.key a.key).swap :=
      OrientedCmp.eq_swap
    have numbers : direction.compare a.seq b.seq = (direction.compare b.seq a.seq).swap :=
      OrientedCmp.eq_swap
    rw [Position.compare, keys, numbers, ← Ordering.swap_then, ← Position.compare]
  isLE_trans := by
    intro a b c ab bc
    simp only [Position.compare, Ordering.isLE_then_iff_or] at ab bc ⊢
    rcases ab with ab | ⟨ab, abSeq⟩
    · rcases bc with bc | ⟨bc, _⟩
      · exact Or.inl (TransCmp.lt_trans ab bc)
      · exact Or.inl (TransCmp.lt_of_lt_of_eq ab bc)
    · rw [TransCmp.congr_left ab]
      exact bc.imp_right (And.imp_right (TransCmp.isLE_trans abSeq))

omit [TransOrd K] in
/-- A position is not met before its key. -/
theorem isLE_key {direction : Direction} {a b : Position K} (lt : a.compare direction b = .lt)
    : (direction.compare a.key b.key).isLE = true := by
  rw [compare] at lt
  cases keys : direction.compare a.key b.key with
  | lt => rfl
  | eq => rfl
  | gt => simp [keys] at lt

/-- Positions are the same if they have equal keys and the same number, in either direction. -/
theorem compare_eq_iff (direction : Direction) {a b : Position K}
    : a.compare direction b = .eq ↔ Ord.compare a.key b.key = .eq ∧ a.seq = b.seq := by
  rw [compare, Ordering.then_eq_eq, direction.compare_eq_iff, direction.compare_eq_iff,
    Nat.compare_eq_eq]

/-- Positions that are the same in one direction are so in the other. -/
theorem compare_eq_of_eq {direction : Direction} (other : Direction) {a b : Position K}
    (same : a.compare direction b = .eq)
    : a.compare other b = .eq :=
  (compare_eq_iff other).mpr ((compare_eq_iff direction).mp same)

end Position

end PagedIndex
