import Mathlib.Algebra.Group.Nat.Defs
import Mathlib.Data.List.Forall2
import PagedIndex.Json.Lexeme

/-! Strings that are read back. Where every character of a text is written so that it is read as one
piece that stands for it, reading the characters up to the closing quote gives the text, whatever
follows.
-/

namespace PagedIndex

namespace Hex

theorem digitValue?_digit : ∀ n < 16, digitValue? (digit n) = some n := by decide

/-- Digits spell the number they are written for, by induction on how many there are. -/
theorem value?_digits {width n : Nat} (fits : n < 16 ^ width)
    : value? (digits width n) = some n := by
  induction width generalizing n with
  | zero =>
      obtain rfl : n = 0 := by omega
      rfl
  | succ width ih =>
      have front := ih (n := n / 16) (by omega)
      unfold value? at front ⊢
      rw [digits, List.foldlM_append, front]
      change ((digitValue? (digit (n % 16))).map (n / 16 * 16 + ·)) >>= pure = some n
      rw [digitValue?_digit (n % 16) (by omega), Option.map_some, Nat.div_add_mod']
      rfl

end Hex

namespace Json

/-! ## Pieces and what they spell -/

/-- A piece stands for the character it holds, or for the one whose code it is if that is below
those of the surrogates.
-/
inductive Piece.StandsFor : Piece → Char → Prop where
  | char (c : Char) : StandsFor (.char c) c
  | unit (c : Char) (low : c.toNat < 0xd800) : StandsFor (.unit c.toNat) c

/-- A unit below the surrogates is a character, whatever follows. -/
theorem spell_unit {c : Char} (low : c.toNat < 0xd800) (pieces : List Piece)
    : spell (.unit c.toNat :: pieces) = (spell pieces).map (c :: ·) := by
  have high : ¬(0xd800 ≤ c.toNat ∧ c.toNat < 0xdc00) := by omega
  have half : ¬(0xdc00 ≤ c.toNat ∧ c.toNat < 0xe000) := by omega
  have alone : ¬(0xd800 ≤ c.toNat ∧ c.toNat < 0xe000) := by omega
  -- Only before another unit is it asked whether this is the first half of a pair.
  rcases pieces with _ | ⟨_ | _, pieces⟩
  · simp only [spell, alone, if_false, Char.ofNat_toNat]
  · simp only [spell, alone, if_false, Char.ofNat_toNat]
  · simp only [spell, high, half, if_false, Char.ofNat_toNat]

/-- Pieces spell the characters they stand for. -/
theorem spell_eq {pieces : List Piece} {cs : List Char}
    (stand : List.Forall₂ Piece.StandsFor pieces cs)
    : spell pieces = some cs := by
  induction stand with
  | nil => rfl
  | cons first _ ih =>
      cases first with
      | char => rw [spell, ih, Option.map_some]
      | unit _ low => rw [spell_unit low, ih, Option.map_some]

/-! ## Written characters -/

/-- Written text is read as one piece, which stands for a character. -/
def ReadsAs (written : List Char) (c : Char) : Prop :=
  ∃ piece : Piece, piece.StandsFor c
    ∧ ∀ rest, readPieces (written ++ rest)
        = (readPieces rest).map fun (pieces, rest) => (piece :: pieces, rest)

/-- A character that need not be escaped is read as itself. -/
theorem readsAs_self {c : Char} (unquoted : c ≠ '"') (unescaped : c ≠ '\\')
    (visible : 32 ≤ c.toNat)
    : ReadsAs [c] c := by
  refine ⟨_, .char c, fun rest => ?_⟩
  have plain : ¬(c.toNat < 32) := by omega
  simp [readPieces, unescaped, plain]

/-- An escape of one letter is read as what the letter stands for. -/
theorem readsAs_letter {c d : Char} (letter : escapedChar? c = some d) : ReadsAs ['\\', c] d := by
  have other : c ≠ 'u' := by
    rintro rfl
    contradiction
  refine ⟨_, .char d, fun rest => ?_⟩
  simp only [List.cons_append, List.nil_append]
  rw [readPieces]
  · rw [letter]
    cases readPieces rest <;> rfl
  · exact fun _ _ _ _ _ same => absurd same other

/-- An escape of four digits is read as the character of this code. -/
theorem readsAs_digits {c : Char} (low : c.toNat < 0xd800)
    : ReadsAs ('\\' :: 'u' :: Hex.digits 4 c.toNat) c := by
  refine ⟨_, .unit c low, fun rest => ?_⟩
  have code : Hex.value? (Hex.digits 4 c.toNat) = some c.toNat := Hex.value?_digits (by omega)
  simp only [Hex.digits, List.nil_append, List.cons_append] at code ⊢
  rw [readPieces, code]
  cases readPieces rest <;> rfl

/-! ## Strings -/

/-- A text is read up to its closing quote, by induction on its characters. -/
theorem readPieces_eq {escape : Char → List Char} (back : ∀ c, ReadsAs (escape c) c)
    (cs rest : List Char)
    : ∃ pieces, List.Forall₂ Piece.StandsFor pieces cs
        ∧ readPieces (cs.flatMap escape ++ '"' :: rest) = some (pieces, rest) := by
  induction cs with
  | nil => exact ⟨[], .nil, by rw [List.flatMap_nil, List.nil_append, readPieces]⟩
  | cons c cs ih =>
      obtain ⟨piece, stands, reads⟩ := back c
      obtain ⟨pieces, stand, later⟩ := ih
      refine ⟨piece :: pieces, .cons stands stand, ?_⟩
      rw [List.flatMap_cons, List.append_assoc, reads, later, Option.map_some]

theorem readString_eq {escape : Char → List Char} (back : ∀ c, ReadsAs (escape c) c) (s : String)
    (rest : List Char)
    : readString (s.toList.flatMap escape ++ '"' :: rest) = some (some s, rest) := by
  obtain ⟨pieces, stand, read⟩ := readPieces_eq back s.toList rest
  simp only [readString, read, Option.map_some, spell_eq stand, String.ofList_toList]

end Json

end PagedIndex
