import PagedIndex.Proofs.Scan.Standing

/-! The interval of keys that a descriptor asks for. A test of single keys, the ends that a copy is
cut at, and the two ends that a traversal starts from and stops at all describe the same keys.
-/

namespace PagedIndex

open Std

variable [Ord K]

/-- A key lies between two ends: inside of each, or at one that belongs to the range. -/
def LiesBetween (ends : Option (Endpoint K) × Option (Endpoint K)) (key : K) : Prop :=
  (∀ low ∈ ends.1,
    compare low.key key = .lt ∨ (compare low.key key = .eq ∧ low.inclusive = true))
  ∧ ∀ high ∈ ends.2,
    compare key high.key = .lt ∨ (compare key high.key = .eq ∧ high.inclusive = true)

/-- Ends between which a sorted map refuses to be read: the lower one lies above the upper one, or
both stop short of equal keys.
-/
def Crossed (ends : Option (Endpoint K) × Option (Endpoint K)) : Prop :=
  ∃ low ∈ ends.1, ∃ high ∈ ends.2,
    compare low.key high.key = .gt
    ∨ (compare low.key high.key = .eq ∧ low.inclusive = false ∧ high.inclusive = false)

/-- Items with a property that none has behind one without it are the first ones. -/
theorem takeWhile_eq_filter {p : α → Bool} {xs : List α}
    (closed : xs.Pairwise fun a b => p b = true → p a = true)
    : xs.takeWhile p = xs.filter p := by
  induction xs with
  | nil => rfl
  | cons a rest ih =>
      obtain ⟨first, later⟩ := List.pairwise_cons.mp closed
      by_cases here : p a = true
      · rw [List.takeWhile_cons_of_pos here, List.filter_cons_of_pos here, ih later]
      · rw [List.takeWhile_cons_of_neg here, List.filter_cons_of_neg here, eq_comm,
          List.filter_eq_nil_iff]
        exact fun b member there => here (first b member there)

namespace Descriptor

variable {d : Descriptor K} {ends : Option (Endpoint K) × Option (Endpoint K)}

/-- The ends of a range that can hold keys are given as they are. -/
theorem endpoints?_eq_some_iff
    : d.endpoints? = some ends ↔ d.isEmptyRange = false ∧ (d.lower, d.upper) = ends := by
  unfold endpoints?
  cases d.isEmptyRange <;> simp

theorem not_crossed (given : d.endpoints? = some ends) : ¬Crossed ends := by
  obtain ⟨possible, rfl⟩ := endpoints?_eq_some_iff.mp given
  rintro ⟨low, isLow, high, isHigh, crossed⟩
  have lower : d.lower = some low := isLow
  have upper : d.upper = some high := isHigh
  rcases crossed with above | ⟨same, shut, _⟩
  · simp [isEmptyRange, lower, upper, above] at possible
  · simp [isEmptyRange, lower, upper, same, shut] at possible

end Descriptor

variable [TransOrd K]

/-- Lying between two ends is reaching the lower one upwards and the upper one downwards. -/
theorem liesBetween_iff {lower upper : Option (Endpoint K)} {key : K}
    : LiesBetween (lower, upper) key
      ↔ Direction.ascending.reaches lower key = true
        ∧ Direction.descending.reaches upper key = true := by
  rw [Direction.reaches_iff, Direction.reaches_iff]
  exact Iff.rfl

namespace Descriptor

variable {d : Descriptor K}

theorem contains_iff_liesBetween {key : K}
    : d.contains key = true ↔ ∃ ends, d.endpoints? = some ends ∧ LiesBetween ends key := by
  rw [contains_eq, Bool.and_eq_true, ← liesBetween_iff]
  constructor
  · intro inside
    refine ⟨_, endpoints?_eq_some_iff.mpr ⟨?_, rfl⟩, inside⟩
    refine Bool.eq_false_iff.mpr fun nothing => ?_
    have outside := d.contains_eq_false_of_isEmptyRange nothing key
    rw [contains_eq, Bool.and_eq_false_iff] at outside
    rw [liesBetween_iff] at inside
    simp [inside] at outside
  · rintro ⟨ends, given, inside⟩
    obtain ⟨_, rfl⟩ := endpoints?_eq_some_iff.mp given
    exact inside

/-- A traversal that starts at the near end and stops past the far end meets what is in range. -/
theorem takeWhile_ahead (d : Descriptor K) {t : Tree K V} (ordered : t.Ordered)
    : (t.ahead d.direction d.nearEnd).takeWhile (fun leaf => !d.isPastFarEnd leaf.key)
      = d.direction.arrange (t.leaves.filter fun leaf => d.contains leaf.key) := by
  have sorted := Direction.pairwise_arrange d.direction
    (ordered.sorted.filter fun leaf => d.direction.reaches d.nearEnd leaf.key)
  rw [Tree.ahead, takeWhile_eq_filter, ← Direction.arrange_filter, List.filter_filter]
  · congr 1
    refine List.filter_congr fun leaf _ => ?_
    rw [contains_eq_near_far, Bool.and_comm]
  · refine sorted.imp fun {a b} further inside => ?_
    rw [Bool.not_eq_true'] at inside ⊢
    refine Bool.eq_false_iff.mpr fun past => ?_
    have behind := d.isPastFarEnd_of_isLE (b := b.key) past (by simp [further])
    simp [inside] at behind

/-- The copy of a range has the buckets of its keys, whether or not the range can hold any. -/
theorem map_key_restrictedTo (d : Descriptor K) (t : Tree K V)
    : (t.restrictedTo d).leaves.map (fun leaf => (leaf.key, leaf.bucket))
      = (t.leaves.filter fun leaf => d.contains leaf.key).map fun leaf =>
          (leaf.key, leaf.bucket) := by
  by_cases nothing : d.isEmptyRange = true
  · simp [Tree.restrictedTo, endpoints?, nothing, Tree.copyOf,
      d.contains_eq_false_of_isEmptyRange nothing]
  · rw [t.leaves_restrictedTo (Bool.eq_false_iff.mpr nothing), List.map_map]
    rfl

/-- A key passes the test of a range if and only if it lies between the ends that a copy is cut at,
and if and only if it is at or beyond the near end and not past the far end in the direction of the
scan. A range that is found empty holds no key, what follows a key past the far end is past it too,
and the ends of a copy are never crossed. So of every tree a traversal that stops at the first key
past the far end has met all that the range holds, and a copy has the same buckets.
-/
theorem range_views_agree (d : Descriptor K) (key : K)
    : (d.contains key = true ↔ ∃ ends, d.endpoints? = some ends ∧ LiesBetween ends key)
      ∧ (d.contains key = true
        ↔ d.direction.reaches d.nearEnd key = true ∧ d.isPastFarEnd key = false)
      ∧ (d.isEmptyRange = true → d.contains key = false)
      ∧ (d.isPastFarEnd key = true
        → ∀ further, (d.direction.compare key further).isLE = true
          → d.isPastFarEnd further = true)
      ∧ (∀ ends, d.endpoints? = some ends → ¬Crossed ends)
      ∧ ∀ (V : Type v) (t : Tree K V), t.Ordered
        → (t.ahead d.direction d.nearEnd).takeWhile (fun leaf => !d.isPastFarEnd leaf.key)
            = d.direction.arrange (t.leaves.filter fun leaf => d.contains leaf.key)
          ∧ (t.restrictedTo d).leaves.map (fun leaf => (leaf.key, leaf.bucket))
            = (t.leaves.filter fun leaf => d.contains leaf.key).map fun leaf =>
                (leaf.key, leaf.bucket) := by
  refine ⟨contains_iff_liesBetween, ?_,
    fun nothing => d.contains_eq_false_of_isEmptyRange nothing key,
    fun past _ further => d.isPastFarEnd_of_isLE past further, fun _ => not_crossed,
    fun _ t ordered => ⟨d.takeWhile_ahead ordered, d.map_key_restrictedTo t⟩⟩
  rw [contains_eq_near_far, Bool.and_eq_true, Bool.not_eq_true']

/-- Downwards from five to what lies above one, five is in the range by every view. -/
theorem five_in_half_open_range
    : Std.TransOrd Int
      ∧ (∃ ends, (range (.excluded 1) (.included 5) .descending).endpoints? = some ends
        ∧ LiesBetween ends (5 : Int))
      ∧ Direction.descending.reaches (some (.included 5)) (5 : Int) = true
      ∧ ∀ further : Int, (Direction.descending.compare 1 further).isLE = true
        → (range (.excluded 1) (.included 5) .descending).isPastFarEnd further = true := by
  have here := range_views_agree.{0, 0} (range (.excluded 1) (.included 5) .descending) (5 : Int)
  have below := range_views_agree.{0, 0} (range (.excluded 1) (.included 5) .descending) (1 : Int)
  exact ⟨inferInstance, here.1.mp (by decide), (here.2.1.mp (by decide)).1,
    below.2.2.2.1 (by decide)⟩

end Descriptor

end PagedIndex
