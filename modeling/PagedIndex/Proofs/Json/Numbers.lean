import PagedIndex.Json.Typed
import PagedIndex.Proofs.Number.Rounding

/-! JSON numbers as they are held once they are read. An integer is held exactly if sixty-four bits
are enough for it, and any other number is held as the nearest binary64 number. Every number that
can be held is held of some numeral.
-/

namespace PagedIndex.Json

open Binary64

/-- A number as it is held: an integer that is not negative, one that is, or a binary64 number. -/
inductive Number where
  | natural (n : UInt64)
  | negative (i : Int64) (below : i.toInt < 0)
  | real (x : Binary64) (finite : x.magnitudeBits < infinityBits.toNat)

/-- The exact value of a number. -/
def Number.value : Number → ℚ
  | natural n => n.toNat
  | negative i _ => i.toInt
  | real x _ => x.toRat

theorem toInt_ofInt_neg {i : Int} (range : -2 ^ 63 ≤ i ∧ i < 0) : (Int64.ofInt i).toInt < 0 := by
  rw [Int64.toInt_ofInt_of_le range.1 (by omega)]
  exact range.2

namespace Numeral

/-- The binary64 number that a numeral is held as, unless it is too large. -/
def heldReal? (n : Numeral) : Option Number :=
  if finite : n.toBinary64.magnitudeBits < infinityBits.toNat then some (.real n.toBinary64 finite)
  else none

/-- What a numeral is held as, unless it is too large. -/
def held? (n : Numeral) : Option Number :=
  match n.toInt? with
  | some i =>
    if 0 ≤ i ∧ i < 2 ^ 64 then some (.natural (UInt64.ofNat i.toNat))
    else if range : -2 ^ 63 ≤ i ∧ i < 0 then
      some (.negative (Int64.ofInt i) (toInt_ofInt_neg range))
    else n.heldReal?
  | none => n.heldReal?

/-- A numeral for each number, which gives a binary64 number in all its decimal digits. -/
def ofNumber : Number → Numeral
  | .natural n => .ofNat n.toNat
  | .negative i _ => .ofInt i.toInt
  | .real x _ =>
    { negative := x.isNegative
      digits := x.decimalDigits
      places := none
      exponent := some (-((-x.scale).toNat : Int)) }

theorem toInt?_ofNat (n : Nat) : (ofNat n).toInt? = some (n : Int) := by
  simp [toInt?, ofNat]

theorem toInt?_ofInt (i : Int) : (ofInt i).toInt? = some i := by
  by_cases negative : i < 0
  · have nonzero : i.natAbs ≠ 0 := by omega
    have spelled : -(i.natAbs : Int) = i := by omega
    simpa [toInt?, ofInt, ofNat, negative, nonzero] using spelled
  · have spelled : (i.natAbs : Int) = i := by omega
    simpa [toInt?, ofInt, ofNat, negative] using spelled

theorem heldReal?_eq_some_iff {n : Numeral} {x : Binary64}
    {finite : x.magnitudeBits < infinityBits.toNat}
    : n.heldReal? = some (.real x finite) ↔ n.toBinary64 = x := by
  unfold heldReal?
  constructor
  · intro held
    split at held
    next => exact (Number.real.injEq _ _ _ _).mp (Option.some.inj held)
    next => contradiction
  · rintro rfl
    rw [dif_pos finite]

theorem heldReal?_cases {n : Numeral} {a : Number} (held : n.heldReal? = some a)
    : ∃ finite, a = .real n.toBinary64 finite := by
  unfold heldReal? at held
  split at held
  next finite => exact ⟨finite, (Option.some.inj held).symm⟩
  next => contradiction

/-- A numeral is held as the integer it spells, or else as the nearest binary64 number. -/
theorem held?_cases {n : Numeral} {a : Number} (held : n.held? = some a)
    : (∃ i, n.toInt? = some i ∧ -2 ^ 63 ≤ i ∧ i < 2 ^ 64 ∧ a.value = i)
      ∨ ((∀ i, n.toInt? = some i → i < -2 ^ 63 ∨ 2 ^ 64 ≤ i)
        ∧ ∃ finite, a = .real n.toBinary64 finite) := by
  unfold held? at held
  split at held
  next i spelled =>
    split at held
    next range =>
      obtain rfl := Option.some.inj held
      have word : i.toNat < UInt64.size := by
        have size : UInt64.size = 2 ^ 64 := rfl
        omega
      have same : (UInt64.ofNat i.toNat).toNat = i.toNat := UInt64.toNat_ofNat_of_lt word
      refine Or.inl ⟨i, spelled, by omega, range.2, ?_⟩
      rw [Number.value, same, ← Int.cast_natCast, Int.toNat_of_nonneg range.1]
    next =>
      split at held
      next range =>
        obtain rfl := Option.some.inj held
        refine Or.inl ⟨i, spelled, range.1, by omega, ?_⟩
        rw [Number.value, Int64.toInt_ofInt_of_le range.1 (by omega)]
      next =>
        refine Or.inr ⟨fun j same => ?_, heldReal?_cases held⟩
        obtain rfl : i = j := Option.some.inj (spelled.symm.trans same)
        omega
  next spelled =>
    refine Or.inr ⟨fun j same => ?_, heldReal?_cases held⟩
    rw [spelled] at same
    contradiction

/-- Every number is held of some numeral. -/
theorem held?_ofNumber (a : Number) : (ofNumber a).held? = some a := by
  cases a with
  | natural n =>
      have word := n.toNat_lt
      simp only [held?, ofNumber, toInt?_ofNat]
      rw [if_pos (by omega), Int.toNat_natCast, UInt64.ofNat_toNat]
  | negative i below =>
      have least := i.le_toInt
      simp only [held?, ofNumber, toInt?_ofInt]
      rw [if_neg (by omega), dif_pos (by omega)]
      simp only [Int64.ofInt_toInt]
  | real x finite =>
      have spelled : (ofNumber (.real x finite)).toInt? = none := rfl
      simp only [held?, spelled, heldReal?_eq_some_iff]
      rw [toBinary64]
      simpa [ofNumber] using ofDecimal_decimalDigits finite

end Numeral

end PagedIndex.Json
