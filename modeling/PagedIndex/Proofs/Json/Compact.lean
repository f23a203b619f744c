import PagedIndex.Proofs.Json.Numerals
import PagedIndex.Proofs.Json.Reading

/-! Compact text that is read back. What is written of a value falls into the lexemes of the value,
to any depth of nesting, so the text spells the value that it was written for.
-/

namespace PagedIndex.Json

variable {rest : List Char} {lexemes : List Lexeme}

/-! ## Strings and numerals -/

/-- Every character reads back from its escape. -/
theorem readsAs_escapeChar (c : Char) : ReadsAs (escapeChar c) c := by
  fun_cases escapeChar c with
  | case1 same | case2 _ same | case3 _ _ same | case4 _ _ _ same | case5 _ _ _ _ same
  | case6 _ _ _ _ _ same | case7 _ _ _ _ _ _ same =>
      rw [same]
      exact readsAs_letter rfl
  | case8 _ _ _ _ _ _ _ control => exact readsAs_digits (by omega)
  | case9 quote backslash _ _ _ _ _ visible => exact readsAs_self quote backslash (by omega)

theorem writeString_some (s : String)
    : writeString (some s) = '"' :: s.toList.flatMap escapeChar ++ ['"'] := rfl

/-- Without a text a string is written as half of a surrogate pair. -/
theorem writeString_none : writeString none = ['"', '\\', 'u', 'd', '8', '0', '0', '"'] := by
  decide

theorem lexes_writeString (text : Option String) (later : Lexes rest lexemes)
    : Lexes (writeString text ++ rest) (.string text :: lexemes) := by
  cases text with
  | some s =>
      have read := Lexes.string readsAs_escapeChar s later
      simpa only [writeString_some, List.cons_append, List.append_assoc, List.nil_append] using read
  | none =>
      have half : Hex.value? ['d', '8', '0', '0'] = some 0xd800 := rfl
      have pieces : readPieces ('\\' :: 'u' :: 'd' :: '8' :: '0' :: '0' :: '"' :: rest)
          = some ([.unit 0xd800], rest) := by
        rw [readPieces, half, readPieces]
        rfl
      rw [writeString_none]
      refine Lexes.cons rfl ?_ ?_ later
      · simp only [List.cons_append, List.nil_append, List.append_eq, readLexeme, readString,
          pieces]
        rfl
      · simp only [List.length_cons, List.append_eq, List.length_append]
        omega

/-- Nothing but a numeral begins with a sign or a digit. -/
theorem readLexeme_of_first {c : Char} {cs : List Char} (first : c = '-' ∨ c.isDigit = true)
    : readLexeme (c :: cs) = (readNumeral (c :: cs)).map fun (n, rest) => (.number n, rest) := by
  rw [readLexeme]
  all_goals
    rintro _ ⟨⟩
    rcases first with sign | digit <;> contradiction

/-- A numeral is a lexeme where nothing goes on with it. -/
theorem lexes_writeNumeral {n : Numeral} (proper : n.places ≠ some 0) (ends : EndsNumeral rest)
    (later : Lexes rest lexemes)
    : Lexes (writeNumeral n ++ rest) (.number n :: lexemes) := by
  have read := readNumeral_writeNumeral proper ends
  obtain ⟨c, cs, begins, first⟩ := exists_first proper
  rw [begins, List.cons_append] at read ⊢
  refine Lexes.cons ?_ ?_ (by simp) later
  · rcases first with rfl | digit
    · rfl
    · refine Bool.eq_false_iff.mpr fun blank => ?_
      simp only [isBlank, Bool.or_eq_true, decide_eq_true_eq] at blank
      rcases blank with ((rfl | rfl) | rfl) | rfl <;> contradiction
  · rw [readLexeme_of_first first, read, Option.map_some]

/-! ## Values -/

/-- A value whose numerals have a digit behind every point. -/
inductive Value.Proper : Value → Prop where
  | null : Proper .null
  | bool (b : Bool) : Proper (.bool b)
  | number {n : Numeral} (places : n.places ≠ some 0) : Proper (.number n)
  | string (text : Option String) : Proper (.string text)
  | array {items : List Value} (each : ∀ v ∈ items, Proper v) : Proper (.array items)
  | object {members : List (Option String × Value)} (each : ∀ member ∈ members, Proper member.2)
    : Proper (.object members)

/-- What is written of a value falls into its lexemes, where nothing goes on with a numeral. -/
def Value.Lexed (v : Value) : Prop :=
  ∀ rest lexemes, EndsNumeral rest → Lexes rest lexemes
    → Lexes (write v ++ rest) (v.lexemes ++ lexemes)

theorem endsNumeral_cons {c : Char} (mark : c = ',' ∨ c = ']' ∨ c = '\x7d')
    : EndsNumeral (c :: rest) := by
  rintro _ ⟨⟩
  rcases mark with rfl | rfl | rfl <;> decide

/-- Values with commas between them, by induction on them. -/
theorem lexes_writeItems {items : List Value} (each : ∀ v ∈ items, v.Lexed)
    (ends : EndsNumeral rest) (later : Lexes rest lexemes)
    : Lexes (writeItems items ++ rest) (itemLexemes items ++ lexemes) := by
  induction items with
  | nil => exact later
  | cons v items ih =>
      have first := each v (by simp)
      cases items with
      | nil => exact first _ _ ends later
      | cons w items =>
          have others := ih fun v member => each v (by simp [member])
          have comma := Lexes.cons (c := ',') rfl rfl (Nat.le_refl _) others
          have read := first _ _ (endsNumeral_cons (Or.inl rfl)) comma
          simpa only [writeItems, itemLexemes, List.append_assoc, List.cons_append] using read

/-- A value behind its name. -/
theorem lexes_writeMember (name : Option String) {v : Value} (lexed : v.Lexed)
    (ends : EndsNumeral rest) (later : Lexes rest lexemes)
    : Lexes (writeString name ++ ':' :: (write v ++ rest))
        (.string name :: .colon :: (v.lexemes ++ lexemes)) :=
  lexes_writeString name (Lexes.cons (c := ':') rfl rfl (Nat.le_refl _) (lexed _ _ ends later))

/-- Named values with commas between them, by induction on them. -/
theorem lexes_writeMembers {members : List (Option String × Value)}
    (each : ∀ member ∈ members, member.2.Lexed) (ends : EndsNumeral rest)
    (later : Lexes rest lexemes)
    : Lexes (writeMembers members ++ rest) (memberLexemes members ++ lexemes) := by
  induction members with
  | nil => exact later
  | cons member members ih =>
      obtain ⟨name, v⟩ := member
      have first := each (name, v) (by simp)
      cases members with
      | nil =>
          simpa only [writeMembers, memberLexemes, List.append_assoc, List.cons_append]
            using lexes_writeMember name first ends later
      | cons other members =>
          have others := ih fun member there => each member (by simp [there])
          have comma := Lexes.cons (c := ',') rfl rfl (Nat.le_refl _) others
          simpa only [writeMembers, memberLexemes, List.append_assoc, List.cons_append]
            using lexes_writeMember name first (endsNumeral_cons (Or.inl rfl)) comma

/-- Every proper value is written in its lexemes, by induction on the value. -/
theorem Value.Proper.lexed {v : Value} (proper : v.Proper) : v.Lexed := by
  induction proper with
  | null => exact fun _ _ _ later => Lexes.cons rfl rfl (by simp; omega) later
  | bool b =>
      cases b with
      | false => exact fun _ _ _ later => Lexes.cons rfl rfl (by simp; omega) later
      | true => exact fun _ _ _ later => Lexes.cons rfl rfl (by simp; omega) later
  | number places => exact fun _ _ => lexes_writeNumeral places
  | string text => exact fun _ _ _ later => lexes_writeString text later
  | array _ ih =>
      intro rest lexemes _ later
      have close := Lexes.cons (c := ']') rfl rfl (Nat.le_refl _) later
      have inner := lexes_writeItems ih (endsNumeral_cons (by simp)) close
      have opened := Lexes.cons (c := '[') rfl rfl (Nat.le_refl _) inner
      simpa only [write, Value.lexemes, List.append_assoc, List.cons_append, List.nil_append]
        using opened
  | object _ ih =>
      intro rest lexemes _ later
      have close := Lexes.cons (c := '\x7d') rfl rfl (Nat.le_refl _) later
      have inner := lexes_writeMembers ih (endsNumeral_cons (by simp)) close
      have opened := Lexes.cons (c := '\x7b') rfl rfl (Nat.le_refl _) inner
      simpa only [write, Value.lexemes, List.append_assoc, List.cons_append, List.nil_append]
        using opened

/-- The compact text of a value spells the value. -/
theorem Value.Proper.parse?_render {v : Value} (proper : v.Proper)
    : Value.parse? v.render = some v := by
  refine Value.parse?_eq ?_
  have read := proper.lexed _ _ (by simp [EndsNumeral]) Lexes.nil
  rwa [List.append_nil, List.append_nil] at read

end PagedIndex.Json
