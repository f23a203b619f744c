import Mathlib.Data.Option.Basic
import PagedIndex.Json.Lexeme
import PagedIndex.Json.Writer

/-! Numerals that are read back. The digits of a number spell it without a zero in front, so what is
written of a numeral is read as its whole part, its fraction and its exponent, provided that what
follows does not go on with it.
-/

namespace PagedIndex.Json

/-! ## Runs of digits -/

/-- Decimal digits and nothing else. -/
def AllDigits (cs : List Char) : Prop := ∀ c ∈ cs, c.isDigit = true

/-- What follows a run of digits does not go on with it. -/
def EndsDigits (rest : List Char) : Prop := ∀ c ∈ rest.head?, c.isDigit = false

theorem spanDigits_append {cs rest : List Char} (digits : AllDigits cs) (ends : EndsDigits rest)
    : spanDigits (cs ++ rest) = (cs, rest) := by
  have stops : rest.takeWhile Char.isDigit = [] ∧ rest.dropWhile Char.isDigit = rest := by
    cases rest with
    | nil => exact ⟨rfl, rfl⟩
    | cons c rest => simp [ends c (by simp)]
  rw [spanDigits, List.takeWhile_append_of_pos digits, List.dropWhile_append_of_pos digits,
    stops.1, stops.2, List.append_nil]

theorem digitsValue_eq (cs : List Char) : digitsValue cs = Nat.ofDigitChars 10 cs 0 := by
  rw [Nat.ofDigitChars_eq_foldl, digitsValue]
  congr 1
  funext n c
  rw [Nat.mul_comm]
  rfl

theorem toList_toString (n : Nat) : (toString n).toList = Nat.toDigits 10 n := by
  rw [Nat.toString_eq_ofList_toDigits, String.toList_ofList]

theorem allDigits_toDigits (n : Nat) : AllDigits (Nat.toDigits 10 n) :=
  fun _ member => Nat.isDigit_of_mem_toDigits (by decide) (by decide) member

theorem digitsValue_toDigits (n : Nat) : digitsValue (Nat.toDigits 10 n) = n := by
  rw [digitsValue_eq, Nat.ofDigitChars_ten_toDigits]

theorem digitChar_ne_zero : ∀ n < 10, 0 < n → Nat.digitChar n ≠ '0' := by decide

/-- A positive number does not begin with a zero, by induction on its digits. -/
theorem head?_toDigits_ne {n : Nat} (positive : 0 < n) : (Nat.toDigits 10 n).head? ≠ some '0' := by
  induction n using Nat.strongRecOn with
  | _ n ih =>
      rw [Nat.toDigits_eq_if (by decide)]
      split
      next small => simpa using digitChar_ne_zero n small positive
      next large =>
        have front := ih (n / 10) (by omega) (by omega)
        rw [List.head?_append]
        cases digits : (Nat.toDigits 10 (n / 10)).head? with
        | none => exact absurd (List.head?_eq_none_iff.mp digits) Nat.toDigits_ne_nil
        | some c => rwa [digits] at front

/-! ## The parts of a numeral -/

/-- The digits before the point: a zero alone, or digits of which the first is none. -/
structure IsWhole (cs : List Char) : Prop where
  digits : AllDigits cs
  nonempty : cs ≠ []
  leading : cs = ['0'] ∨ cs.head? ≠ some '0'

theorem isWhole_toDigits (n : Nat) : IsWhole (Nat.toDigits 10 n) where
  digits := allDigits_toDigits n
  nonempty := Nat.toDigits_ne_nil
  leading := by
    rcases Nat.eq_zero_or_pos n with rfl | positive
    · exact Or.inl (Nat.toDigits_zero 10)
    · exact Or.inr (head?_toDigits_ne positive)

/-- The digits of a number with zeros in front, so that there is one more than some places. -/
def padded (n places : Nat) : List Char :=
  List.replicate (places + 1 - (Nat.toDigits 10 n).length) '0' ++ Nat.toDigits 10 n

theorem lt_length_padded (n places : Nat) : places < (padded n places).length := by
  rw [padded, List.length_append, List.length_replicate]
  omega

theorem allDigits_padded (n places : Nat) : AllDigits (padded n places) := by
  intro c member
  rcases List.mem_append.mp member with zero | digit
  · rw [(List.mem_replicate.mp zero).2]
    rfl
  · exact allDigits_toDigits n c digit

/-- Zeros in front of a number do not change it. -/
theorem digitsValue_padded (n places : Nat) : digitsValue (padded n places) = n := by
  rw [digitsValue_eq, padded, Nat.ofDigitChars_append, Nat.ofDigitChars_replicate_zero,
    Nat.mul_zero, Nat.ofDigitChars_ten_toDigits]

/-- What is left before some places is a zero that was put there or begins as the number does. -/
theorem isWhole_take_padded (n : Nat) {places : Nat} (positive : 0 < places)
    : IsWhole ((padded n places).take ((padded n places).length - places)) where
  digits := fun c member => allDigits_padded n places c (List.mem_of_mem_take member)
  nonempty := by
    have longer := lt_length_padded n places
    rw [Ne, List.take_eq_nil_iff, ← List.length_eq_zero_iff]
    omega
  leading := by
    by_cases short : (Nat.toDigits 10 n).length ≤ places
    · have zeros : places + 1 - (Nat.toDigits 10 n).length
          = places - (Nat.toDigits 10 n).length + 1 := by omega
      have one : (padded n places).length - places = 1 := by
        rw [padded, List.length_append, List.length_replicate]
        omega
      rw [one, padded, zeros, List.replicate_succ]
      exact Or.inl rfl
    · have unpadded : padded n places = Nat.toDigits 10 n := by
        have zeros : places + 1 - (Nat.toDigits 10 n).length = 0 := by omega
        rw [padded, zeros, List.replicate_zero, List.nil_append]
      have nonzero : 0 < n := by
        refine Nat.pos_of_ne_zero ?_
        rintro rfl
        exact short positive
      refine Or.inr ?_
      rw [unpadded, List.head?_take, if_neg (by omega)]
      exact head?_toDigits_ne nonzero

/-- The digits after the point, with the point. -/
def pointed : Option (List Char) → List Char
  | none => []
  | some digits => '.' :: digits

/-- The digits of a numeral are written as a whole part and a fraction, of which each has at least
one, unless there is a point without places.
-/
theorem exists_parts (n : Nat) {places : Option Nat} (proper : places ≠ some 0)
    : ∃ whole fraction, IsWhole whole
        ∧ (∀ digits ∈ fraction, digits ≠ [] ∧ AllDigits digits)
        ∧ writeDigits n places = whole ++ pointed fraction
        ∧ digitsValue (whole ++ fraction.getD []) = n
        ∧ fraction.map List.length = places := by
  cases places with
  | none =>
      refine ⟨_, none, isWhole_toDigits n, by simp, ?_, ?_, rfl⟩
      · simp [writeDigits, pointed]
      · simpa using digitsValue_toDigits n
  | some places =>
      have positive : 0 < places := by
        refine Nat.pos_of_ne_zero ?_
        rintro rfl
        contradiction
      have longer := lt_length_padded n places
      refine ⟨_, some ((padded n places).drop ((padded n places).length - places)),
        isWhole_take_padded n positive, ?_, ?_, ?_, ?_⟩
      · rintro digits ⟨⟩
        refine ⟨?_, fun c member => allDigits_padded n places c (List.mem_of_mem_drop member)⟩
        rw [Ne, List.drop_eq_nil_iff]
        omega
      · simp [writeDigits, pointed, padded]
      · simpa using digitsValue_padded n places
      · rw [Option.map_some, List.length_drop]
        congr 1
        omega

/-! ## Reading the parts -/

theorem readFraction_pointed {fraction : Option (List Char)} {rest : List Char}
    (digits : ∀ cs ∈ fraction, cs ≠ [] ∧ AllDigits cs)
    (ends : ∀ c ∈ rest.head?, c.isDigit = false ∧ c ≠ '.')
    : readFraction (pointed fraction ++ rest) = some (fraction, rest) := by
  cases fraction with
  | none =>
      cases rest with
      | nil => rfl
      | cons c rest =>
          rw [pointed, List.nil_append, readFraction]
          exact fun _ same => (ends c rfl).2 (List.cons.inj same).1
  | some cs =>
      obtain ⟨nonempty, all⟩ := digits cs rfl
      rw [pointed, List.cons_append, readFraction,
        spanDigits_append all fun c first => (ends c first).1]
      simp [nonempty]

/-- Digits behind the letter of an exponent are read as a number that is not negative. -/
theorem readExponent_digits {cs rest : List Char} (nonempty : cs ≠ []) (digits : AllDigits cs)
    (ends : EndsDigits rest)
    : readExponent ('e' :: (cs ++ rest)) = some (some (digitsValue cs : Int), rest) := by
  have span := spanDigits_append digits ends
  cases cs with
  | nil => contradiction
  | cons c cs =>
      have first := digits c (by simp)
      have minus : c ≠ '-' := by rintro rfl; contradiction
      have plus : c ≠ '+' := by rintro rfl; contradiction
      rw [List.cons_append] at span ⊢
      simp [readExponent, minus, plus, span]

/-- With a sign before them they are read as a number that is not positive. -/
theorem readExponent_minus {cs rest : List Char} (nonempty : cs ≠ []) (digits : AllDigits cs)
    (ends : EndsDigits rest)
    : readExponent ('e' :: '-' :: (cs ++ rest)) = some (some (-(digitsValue cs : Int)), rest) := by
  simp [readExponent, spanDigits_append digits ends, nonempty]

/-- An exponent as it is written behind the digits. -/
def writeExponent (exponent : Option Int) : List Char :=
  (exponent.map fun e => 'e' :: (toString e).toList).getD []

/-- What follows a numeral does not go on with it. -/
def EndsNumeral (rest : List Char) : Prop :=
  ∀ c ∈ rest.head?, c.isDigit = false ∧ c ≠ '.' ∧ c ≠ 'e' ∧ c ≠ 'E'

theorem readExponent_writeExponent (exponent : Option Int) {rest : List Char}
    (ends : EndsNumeral rest)
    : readExponent (writeExponent exponent ++ rest) = some (exponent, rest) := by
  have stops : EndsDigits rest := fun c first => (ends c first).1
  match exponent with
  | none =>
      cases rest with
      | nil => rfl
      | cons c rest =>
          obtain ⟨_, _, small, capital⟩ := ends c rfl
          simp [writeExponent, readExponent, small, capital]
  | some (.ofNat n) =>
      have written : writeExponent (some (.ofNat n)) = 'e' :: Nat.toDigits 10 n :=
        congrArg ('e' :: ·) (toList_toString n)
      rw [written, List.cons_append,
        readExponent_digits Nat.toDigits_ne_nil (allDigits_toDigits n) stops, digitsValue_toDigits]
      rfl
  | some (.negSucc n) =>
      have written : writeExponent (some (.negSucc n)) = 'e' :: '-' :: Nat.toDigits 10 (n + 1) := by
        change 'e' :: ("-" ++ toString (n + 1)).toList = _
        rw [String.toList_append, toList_toString]
        rfl
      rw [written, List.cons_append, List.cons_append,
        readExponent_minus Nat.toDigits_ne_nil (allDigits_toDigits _) stops, digitsValue_toDigits]
      rfl

/-! ## Numerals -/

/-- The digits before the point are read up to where they end. -/
theorem readUnsigned_whole {negative : Bool} {whole rest : List Char} (isWhole : IsWhole whole)
    (ends : EndsDigits rest)
    : readUnsigned negative (whole ++ rest) = do
        let (fraction, rest) ← readFraction rest
        let (exponent, rest) ← readExponent rest
        let digits := digitsValue (whole ++ fraction.getD [])
        return ({ negative, digits, places := fraction.map List.length, exponent }, rest) := by
  have span := spanDigits_append isWhole.digits ends
  rcases isWhole.leading with rfl | other
  · rfl
  · cases whole with
    | nil => exact absurd rfl isWhole.nonempty
    | cons c cs =>
        have nonzero : c ≠ '0' := fun same => other (congrArg some same)
        rw [List.cons_append] at span ⊢
        rw [readUnsigned]
        · rw [span]
          rfl
        · exact fun _ same => nonzero (List.cons.inj same).1

theorem ends_writeExponent (exponent : Option Int) {rest : List Char}
    (ends : EndsNumeral rest)
    : ∀ c ∈ (writeExponent exponent ++ rest).head?, c.isDigit = false ∧ c ≠ '.' := by
  cases exponent with
  | none => exact fun c first => ⟨(ends c first).1, (ends c first).2.1⟩
  | some e =>
      rintro c ⟨⟩
      decide

theorem ends_pointed (fraction : Option (List Char)) {rest : List Char}
    (ends : EndsDigits rest)
    : EndsDigits (pointed fraction ++ rest) := by
  cases fraction with
  | none => exact ends
  | some cs =>
      rintro c ⟨⟩
      rfl

/-- The parts of a numeral are read as the numeral. -/
theorem readUnsigned_written (negative : Bool) (exponent : Option Int) {whole : List Char}
    {fraction : Option (List Char)} {rest : List Char} (isWhole : IsWhole whole)
    (digits : ∀ cs ∈ fraction, cs ≠ [] ∧ AllDigits cs) (ends : EndsNumeral rest)
    : readUnsigned negative (whole ++ (pointed fraction ++ (writeExponent exponent ++ rest)))
      = some ({ negative
                digits := digitsValue (whole ++ fraction.getD [])
                places := fraction.map List.length
                exponent }, rest) := by
  have behind := ends_writeExponent exponent ends
  have point := ends_pointed fraction fun c first => (behind c first).1
  rw [readUnsigned_whole isWhole point, readFraction_pointed digits behind]
  simp [readExponent_writeExponent exponent ends]

/-- A numeral begins with a sign or a digit. -/
theorem exists_first {n : Numeral} (proper : n.places ≠ some 0)
    : ∃ c cs, writeNumeral n = c :: cs ∧ (c = '-' ∨ c.isDigit = true) := by
  obtain ⟨whole, fraction, isWhole, _, written, _⟩ := exists_parts n.digits proper
  obtain ⟨c, cs, rfl⟩ := List.exists_cons_of_ne_nil isWhole.nonempty
  rw [writeNumeral, written]
  cases n.negative with
  | true => exact ⟨_, _, rfl, Or.inl rfl⟩
  | false => exact ⟨_, _, rfl, Or.inr (isWhole.digits c (by simp))⟩

/-- A numeral is read as it was written, unless it has a point and nothing behind it. -/
theorem readNumeral_writeNumeral {n : Numeral} (proper : n.places ≠ some 0) {rest : List Char}
    (ends : EndsNumeral rest)
    : readNumeral (writeNumeral n ++ rest) = some (n, rest) := by
  obtain ⟨negative, digits, places, exponent⟩ := n
  obtain ⟨whole, fraction, isWhole, all, written, value, length⟩ := exists_parts digits proper
  have read (negative : Bool) := readUnsigned_written negative exponent isWhole all ends
  rw [value, length] at read
  have text : writeNumeral ⟨negative, digits, places, exponent⟩ ++ rest
      = (if negative then ['-'] else [])
          ++ (whole ++ (pointed fraction ++ (writeExponent exponent ++ rest))) := by
    simp only [writeNumeral, written, writeExponent, List.append_assoc]
  rw [text]
  cases negative with
  | true => exact read true
  | false =>
      obtain ⟨c, cs, rfl⟩ := List.exists_cons_of_ne_nil isWhole.nonempty
      have digit := isWhole.digits c (by simp)
      have unsigned : c ≠ '-' := by rintro rfl; contradiction
      rw [← read false]
      simp [readNumeral, unsigned]

end PagedIndex.Json
