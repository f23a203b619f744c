import PagedIndex.Key
import PagedIndex.Proofs.Number.Integers
import PagedIndex.Proofs.Text.Utf8Order

/-! The order of keys. A key denotes nothing, a truth value, a number or a text, and keys compare as
what they denote. So their order is a total one, in which keys are equal that denote the same.
-/

namespace PagedIndex

open Binary64

section

variable {α : Type u} [LinearOrder α] {a b : α}

theorem isLT_cmp_iff : (cmp a b).isLT = true ↔ a < b := by
  rw [Ordering.isLT_iff_eq_lt, cmp_eq_lt_iff]

theorem isGE_cmp_iff : (cmp a b).isGE = true ↔ b ≤ a := by
  rw [← not_lt, ← isLT_cmp_iff]
  cases cmp a b <;> decide

theorem isLE_cmp_iff : (cmp a b).isLE = true ↔ a ≤ b := by
  rw [← cmp_swap, Ordering.isLE_swap, isGE_cmp_iff]

end

/-! ## Numbers -/

namespace Quantity

/-- What a canonical number denotes. -/
def value : Quantity → Numeric
  | .whole i => .ofRat i.toInt
  | .real x => x.value

/-- There is one NaN, and a real is not an integer that could be held as such. -/
def Canonical : Quantity → Prop
  | .whole _ => True
  | .real x => (x.isNaN = true → x = .nan) ∧ ∀ i : Int64, x.value ≠ .ofRat i.toInt

/-- The canonical form of a number is the integer it denotes, the one NaN, or the number itself. -/
theorem ofBinary64_cases (x : Binary64)
    : (∃ i : Int64, ofBinary64 x = .whole i ∧ x.value = .ofRat i.toInt)
      ∨ (x.isNaN = true ∧ ofBinary64 x = .real .nan)
      ∨ (x.isNaN = false ∧ ofBinary64 x = .real x ∧ ∀ i : Int64, x.value ≠ .ofRat i.toInt) := by
  unfold ofBinary64
  cases number : x.isNaN with
  | true => exact Or.inr (Or.inl ⟨rfl, rfl⟩)
  | false =>
      simp only [Bool.false_eq_true, if_false]
      cases found : x.toInt? with
      | none =>
          refine Or.inr (Or.inr ⟨trivial, rfl, fun i denoted => ?_⟩)
          simp [toInt?_eq_some_iff.mpr denoted] at found
      | some n =>
          have denoted := toInt?_eq_some_iff.mp found
          simp only
          split
          next range =>
            refine Or.inl ⟨_, rfl, ?_⟩
            rw [Int64.toInt_minValue, Int64.toInt_maxValue] at range
            rw [Int64.toInt_ofInt_of_le range.1 (by omega), denoted]
          next outside =>
            refine Or.inr (Or.inr ⟨trivial, rfl, fun i held => outside ?_⟩)
            rw [denoted, Numeric.ofRat_inj] at held
            obtain rfl : n = i.toInt := by exact_mod_cast held
            exact ⟨i.minValue_le_toInt, i.toInt_le⟩

theorem canonical_ofBinary64 (x : Binary64) : (ofBinary64 x).Canonical := by
  rcases ofBinary64_cases x with ⟨i, form, _⟩ | ⟨_, form⟩ | ⟨number, form, apart⟩ <;> rw [form]
  · trivial
  · refine ⟨fun _ => rfl, fun i denoted => ?_⟩
    rw [value_nan] at denoted
    exact (Numeric.ofRat_lt_nan i.toInt).ne' denoted
  · exact ⟨fun is => by simp [number] at is, apart⟩

/-- The canonical form of a number denotes what the number does. -/
theorem value_ofBinary64 (x : Binary64) : (ofBinary64 x).value = x.value := by
  rcases ofBinary64_cases x with ⟨i, form, denoted⟩ | ⟨is, form⟩ | ⟨_, form, _⟩ <;> rw [form]
  · exact denoted.symm
  · rw [value_of_isNaN is, value, value_nan]
  · rfl

theorem value_twoPow63 : twoPow63.value = .ofRat (2 ^ 63) := by
  have numerator : twoPow63.numerator = 2 ^ 63 := by decide
  have denominator : twoPow63.denominator = 1 := by decide
  rw [value_of_finite (by decide), toRat_eq_div, numerator, denominator]
  norm_num

theorem value_minusTwoPow63 : minusTwoPow63.value = .ofRat (-2 ^ 63) := by
  have numerator : minusTwoPow63.numerator = -2 ^ 63 := by decide
  have denominator : minusTwoPow63.denominator = 1 := by decide
  rw [value_of_finite (by decide), toRat_eq_div, numerator, denominator]
  norm_num

/-- A number in the range of the integers that is none of them has a fractional part, so it is below
two to the power of 52 on either side.
-/
theorem small_of_canonical {x : Binary64} (canonical : (Quantity.real x).Canonical)
    (low : .ofRat (-2 ^ 63) ≤ x.value) (high : x.value < .ofRat (2 ^ 63))
    : x.magnitudeBits < 1075 * leadingBit := by
  refine not_le.mp fun large => ?_
  have denoted := value_of_finite (finite_of_between low high)
  obtain ⟨n, whole⟩ := exists_int_eq_toRat large
  rw [whole] at denoted
  rw [denoted, Numeric.ofRat_le_ofRat] at low
  rw [denoted, Numeric.ofRat_lt_ofRat] at high
  have held : (Int64.ofInt n).toInt = n :=
    Int64.toInt_ofInt_of_le (by exact_mod_cast low) (by exact_mod_cast high)
  exact canonical.2 (Int64.ofInt n) (by rw [held, denoted])

/-- An integer compares with any other canonical number as what they denote, although it is rounded
on the way.
-/
theorem compareWhole_eq (i : Int64) {x : Binary64} (canonical : (Quantity.real x).Canonical)
    : compareWhole i x = cmp (.ofRat i.toInt) x.value := by
  have least : Numeric.ofRat (-2 ^ 63) ≤ .ofRat i.toInt := by
    rw [Numeric.ofRat_le_ofRat]
    exact_mod_cast i.le_toInt
  have greatest : Numeric.ofRat i.toInt < .ofRat (2 ^ 63) := by
    rw [Numeric.ofRat_lt_ofRat]
    exact_mod_cast i.toInt_lt
  unfold compareWhole
  cases number : x.isNaN with
  | true =>
      rw [value_of_isNaN number, (cmp_eq_lt_iff _ _).mpr (Numeric.ofRat_lt_nan i.toInt)]
      rfl
  | false =>
      rw [partialCompare_eq number (by decide), partialCompare_eq number (by decide),
        value_twoPow63, value_minusTwoPow63]
      simp only [Option.any_some, isGE_cmp_iff, isLT_cmp_iff, Bool.false_or]
      split
      next beyond => exact ((cmp_eq_lt_iff _ _).mpr (greatest.trans_le beyond)).symm
      next below =>
        split
        next beyond => exact ((cmp_eq_gt_iff _ _).mpr (beyond.trans_le least)).symm
        next above =>
          -- Only here is the integer rounded.
          have small := small_of_canonical canonical (not_lt.mp above) (not_le.mp below)
          rw [partialCompare_ofInt i.toInt small, Option.getD_some]

theorem compare_whole (i j : Int64)
    : Ord.compare i j = cmp (Numeric.ofRat i.toInt) (.ofRat j.toInt) := by
  change compareOfLessAndEq i j = _
  unfold compareOfLessAndEq
  split
  next less =>
    rw [eq_comm, cmp_eq_lt_iff, Numeric.ofRat_lt_ofRat]
    exact_mod_cast Int64.lt_iff_toInt_lt.mp less
  next notLess =>
    split
    next same => rw [same, cmp_self_eq_eq]
    next apart =>
      have different : i.toInt ≠ j.toInt := fun same => apart (Int64.toInt_inj.mp same)
      rw [Int64.lt_iff_toInt_lt] at notLess
      rw [eq_comm, cmp_eq_gt_iff, Numeric.ofRat_lt_ofRat]
      exact_mod_cast (by omega : j.toInt < i.toInt)

/-- Zero is an integer, so the zeros are not among the other canonical numbers. -/
theorem magnitudeBits_ne_zero {x : Binary64} (canonical : (Quantity.real x).Canonical)
    : x.magnitudeBits ≠ 0 := by
  intro zero
  refine canonical.2 0 ?_
  rw [value_of_zero zero]
  rfl

/-- The codes of canonical numbers that are not integers are in the order of what they denote. -/
theorem compare_real {x y : Binary64} (left : (Quantity.real x).Canonical)
    (right : (Quantity.real y).Canonical)
    : Ord.compare x.orderCode y.orderCode = cmp x.value y.value := by
  cases numberX : x.isNaN <;> cases numberY : y.isNaN
  · rw [cmp_value numberX numberY,
      compare_orderCode fun both => magnitudeBits_ne_zero left both.1]
  · rw [right.1 numberY, compare_orderCode_nan numberX,
      (cmp_eq_lt_iff _ _).mpr (value_lt_nan numberX)]
  · rw [left.1 numberX, Std.OrientedOrd.eq_swap, compare_orderCode_nan numberY,
      (cmp_eq_gt_iff _ _).mpr (value_lt_nan numberY)]
    rfl
  · rw [left.1 numberX, right.1 numberY, cmp_self_eq_eq]
    exact Std.ReflCmp.compare_self

/-- Canonical numbers compare as what they denote. -/
theorem compare_eq {x y : Quantity} (left : x.Canonical) (right : y.Canonical)
    : x.compare y = cmp x.value y.value := by
  cases x with
  | whole i =>
      cases y with
      | whole j => exact compare_whole i j
      | real y => exact compareWhole_eq i right
  | real x =>
      cases y with
      | whole j =>
          rw [compare, compareWhole_eq j left, cmp_swap]
          rfl
      | real y => exact compare_real left right

end Quantity

/-! ## Keys -/

namespace Key

/-- What keys denote: nothing, a truth value, a number or the bytes of a text, in this order. -/
abbrev Value := Unit ⊕ₗ Bool ⊕ₗ Numeric ⊕ₗ List Nat

/-- What a key denotes. -/
def value : Key → Value
  | .null => Sum.inlₗ ()
  | .bool b => Sum.inrₗ (Sum.inlₗ b)
  | .int i => Sum.inrₗ (Sum.inrₗ (Sum.inlₗ (.ofRat i.toInt)))
  | .real code => Sum.inrₗ (Sum.inrₗ (Sum.inlₗ (ofOrderCode code).value))
  | .text s => Sum.inrₗ (Sum.inrₗ (Sum.inrₗ (Text.utf8Bytes s)))

/-- The key of a binary64 number denotes its value. -/
theorem value_ofBinary64 (x : Binary64)
    : (ofBinary64 x).value = Sum.inrₗ (Sum.inrₗ (Sum.inlₗ x.value)) := by
  rw [← Quantity.value_ofBinary64, ofBinary64]
  cases Quantity.ofBinary64 x with
  | whole i => rfl
  | real y => simp only [value, ofOrderCode_orderCode, Quantity.value]

theorem value_of_quantity? {k : Key} {x : Quantity} (numeric : k.quantity? = some x)
    : k.value = Sum.inrₗ (Sum.inrₗ (Sum.inlₗ x.value)) ∧ x.Canonical := by
  cases k with
  | int i =>
      obtain rfl := Option.some.inj numeric
      exact ⟨rfl, trivial⟩
  | real code =>
      obtain rfl := Option.some.inj numeric
      exact ⟨by rw [Quantity.value_ofBinary64]; rfl, Quantity.canonical_ofBinary64 _⟩
  | _ => contradiction

theorem compare_of_quantity? {a b : Key} {x y : Quantity} (left : a.quantity? = some x)
    (right : b.quantity? = some y)
    : compare a b = x.compare y := by
  cases a <;> first | contradiction | cases b <;> first | contradiction | skip
  all_goals
    obtain rfl := Option.some.inj left
    obtain rfl := Option.some.inj right
    rfl

/-- Keys of a lower kind denote less. -/
theorem value_lt_of_rank_lt {a b : Key} (below : a.rank < b.rank) : a.value < b.value := by
  cases a <;> cases b <;> simp [rank] at below <;> simp [value, Sum.inlₗ, Sum.inrₗ]

theorem compare_of_rank_ne {a b : Key} (apart : a.rank ≠ b.rank)
    : compare a b = Ord.compare a.rank b.rank := by
  cases a <;> cases b <;> first
    | exact absurd rfl apart
    | rfl

theorem strictMono_number
    : StrictMono fun n : Numeric => (Sum.inrₗ (Sum.inrₗ (Sum.inlₗ n)) : Value) :=
  Sum.Lex.inr_strictMono.comp (Sum.Lex.inr_strictMono.comp Sum.Lex.inl_strictMono)

/-- Numeric keys compare as their numbers. -/
theorem compare_eq_cmp_of_quantity? {a b : Key} {x y : Quantity} (left : a.quantity? = some x)
    (right : b.quantity? = some y)
    : compare a b = cmp a.value b.value := by
  obtain ⟨denotedA, canonicalA⟩ := value_of_quantity? left
  obtain ⟨denotedB, canonicalB⟩ := value_of_quantity? right
  rw [compare_of_quantity? left right, Quantity.compare_eq canonicalA canonicalB, denotedA,
    denotedB, strictMono_number.cmp_map_eq]

theorem kinds_of_rank_eq {a b : Key} (same : a.rank = b.rank)
    : (a = .null ∧ b = .null)
      ∨ (∃ x y, a = .bool x ∧ b = .bool y)
      ∨ (∃ x y, a.quantity? = some x ∧ b.quantity? = some y)
      ∨ ∃ s t, a = .text s ∧ b = .text t := by
  cases a <;> cases b <;> simp [rank] at same <;> simp [quantity?]

/-- Keys of one kind compare as what they denote. -/
theorem compare_eq_cmp_of_rank_eq {a b : Key} (same : a.rank = b.rank)
    : compare a b = cmp a.value b.value := by
  rcases kinds_of_rank_eq same with
    ⟨rfl, rfl⟩ | ⟨x, y, rfl, rfl⟩ | ⟨x, y, left, right⟩ | ⟨s, t, rfl, rfl⟩
  · rw [cmp_self_eq_eq]
    rfl
  · have mono : StrictMono fun b : Bool => (Sum.inrₗ (Sum.inlₗ b) : Value) :=
      Sum.Lex.inr_strictMono.comp Sum.Lex.inl_strictMono
    exact (cmp_eq_compare x y).symm.trans (mono.cmp_map_eq x y).symm
  · exact compare_eq_cmp_of_quantity? left right
  · have mono : StrictMono fun s => (Sum.inrₗ (Sum.inrₗ (Sum.inrₗ (Text.utf8Bytes s))) : Value) :=
      Sum.Lex.inr_strictMono.comp
        (Sum.Lex.inr_strictMono.comp (Sum.Lex.inr_strictMono.comp Text.strictMono_utf8Bytes))
    exact (cmp_eq_compare s t).symm.trans (mono.cmp_map_eq s t).symm

/-- Keys compare as what they denote. -/
theorem compare_eq_cmp (a b : Key) : compare a b = cmp a.value b.value := by
  rcases lt_trichotomy a.rank b.rank with below | same | above
  · rw [compare_of_rank_ne below.ne, (cmp_eq_lt_iff _ _).mpr (value_lt_of_rank_lt below)]
    exact compare_lt_iff_lt.mpr below
  · exact compare_eq_cmp_of_rank_eq same
  · rw [compare_of_rank_ne above.ne', (cmp_eq_gt_iff _ _).mpr (value_lt_of_rank_lt above)]
    exact compare_gt_iff_gt.mpr above

instance : Std.TransOrd Key where
  eq_swap := by
    intro a b
    change compare a b = (compare b a).swap
    rw [compare_eq_cmp, compare_eq_cmp, cmp_swap]
  isLE_trans := by
    intro a b c first second
    change (compare a b).isLE = true at first
    change (compare b c).isLE = true at second
    change (compare a c).isLE = true
    rw [compare_eq_cmp, isLE_cmp_iff] at *
    exact first.trans second

/-- For keys of every kind, whatever bits a real is stored as, comparing them is comparing what they
denote. So the order is total, and keys are equal in it, in the partial order and by themselves, if
and only if they denote the same.
-/
theorem order_of_values (a b : Key)
    : Ord.compare a b = cmp a.value b.value
      ∧ (Ord.compare a b = .eq ↔ a.value = b.value)
      ∧ Ord.compare b a = (Ord.compare a b).swap
      ∧ ((Ord.compare a b).isLE = true ∨ (Ord.compare b a).isLE = true)
      ∧ ((Ord.compare a b).isLE = true ∧ (Ord.compare b a).isLE = true ↔ a.value = b.value)
      ∧ (∀ c : Key, (Ord.compare a b).isLE = true → (Ord.compare b c).isLE = true
          → (Ord.compare a c).isLE = true)
      ∧ a.partialCompare b = some (cmp a.value b.value)
      ∧ (a.agrees b = true ↔ a.value = b.value) := by
  have denoted (a b : Key) : Ord.compare a b = cmp a.value b.value := compare_eq_cmp a b
  refine ⟨denoted a b, ?_, Std.OrientedOrd.eq_swap, ?_, ?_, ?_, ?_, ?_⟩
  · rw [denoted, cmp_eq_eq_iff]
  · rw [denoted, denoted, isLE_cmp_iff, isLE_cmp_iff]
    exact le_total _ _
  · rw [denoted, denoted, isLE_cmp_iff, isLE_cmp_iff]
    exact le_antisymm_iff.symm
  · exact fun c => Std.TransCmp.isLE_trans
  · rw [partialCompare, denoted]
  · rw [agrees, denoted, beq_iff_eq, cmp_eq_eq_iff]

/-- An integer that rounding would take to the real is still above it. -/
example : Ord.compare (Key.int 9007199254740993) (.real 0xc340000000000000) = .gt := by decide

end Key

end PagedIndex
