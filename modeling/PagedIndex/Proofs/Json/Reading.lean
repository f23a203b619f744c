import PagedIndex.Json.Reader
import PagedIndex.Proofs.Json.Strings

/-! JSON text that is read back. A text falls into lexemes one at a time, and from the lexemes of a
value the reader gets the value and nothing else, to any depth of nesting.
-/

namespace PagedIndex.Json

/-! ## Lexemes of a text -/

/-- The lexemes of a text, in however many steps above its length they are read. -/
def Lexes (cs : List Char) (lexemes : List Lexeme) : Prop :=
  ∀ fuel, cs.length ≤ fuel → lexemesWithin fuel cs = some lexemes

namespace Lexes

variable {c : Char} {cs rest : List Char} {lexeme : Lexeme} {lexemes : List Lexeme}

theorem nil : Lexes [] [] := by
  intro fuel _
  cases fuel <;> rfl

theorem cons (visible : isBlank c = false) (read : readLexeme (c :: cs) = some (lexeme, rest))
    (shorter : rest.length ≤ cs.length) (later : Lexes rest lexemes)
    : Lexes (c :: cs) (lexeme :: lexemes) := by
  intro fuel enough
  cases fuel with
  | zero => contradiction
  | succ fuel =>
      have remaining : rest.length ≤ fuel := by
        rw [List.length_cons] at enough
        omega
      rw [lexemesWithin, visible, read]
      simp [later fuel remaining]

/-- A written string is one lexeme. -/
theorem string {escape : Char → List Char} (back : ∀ c, ReadsAs (escape c) c) (s : String)
    (later : Lexes rest lexemes)
    : Lexes ('"' :: s.toList.flatMap escape ++ '"' :: rest) (.string (some s) :: lexemes) := by
  refine cons rfl ?_ ?_ later
  · simp only [List.append_eq, readLexeme, readString_eq back, Option.map_some]
  · simp only [List.append_eq, List.length_append, List.length_cons]
    omega

theorem lexemes?_eq (lexed : Lexes cs lexemes) : lexemes? cs = some lexemes :=
  lexed cs.length (Nat.le_refl _)

end Lexes

/-! ## Lexemes of a value -/

mutual

/-- The lexemes that a value is written in. -/
def Value.lexemes : Value → List Lexeme
  | .null => [.null]
  | .bool b => [.bool b]
  | .number n => [.number n]
  | .string text => [.string text]
  | .array items => .openArray :: itemLexemes items ++ [.closeArray]
  | .object members => .openObject :: memberLexemes members ++ [.closeObject]

/-- The lexemes of values with commas between them. -/
def itemLexemes : List Value → List Lexeme
  | [] => []
  | [v] => v.lexemes
  | v :: rest => v.lexemes ++ .comma :: itemLexemes rest

/-- The lexemes of named values with commas between them. -/
def memberLexemes : List (Option String × Value) → List Lexeme
  | [] => []
  | [(name, v)] => .string name :: .colon :: v.lexemes
  | (name, v) :: rest => .string name :: .colon :: v.lexemes ++ .comma :: memberLexemes rest

end

@[simp] theorem Value.lexemes_ofText (s : String)
    : (Value.ofText s).lexemes = [.string (some s)] := rfl

/-- No value begins with a closing bracket. -/
theorem Value.lexemes_eq_cons (v : Value)
    : ∃ lexeme rest, v.lexemes = lexeme :: rest ∧ lexeme ≠ .closeArray := by
  cases v <;> exact ⟨_, _, rfl, nofun⟩

theorem itemLexemes_cons (v : Value) (items : List Value)
    : ∃ rest, itemLexemes (v :: items) = v.lexemes ++ rest := by
  cases items with
  | nil => exact ⟨[], (List.append_nil _).symm⟩
  | cons w items => exact ⟨_, rfl⟩

/-- An array that does not end at once is read by its items. -/
theorem readValue_openArray (v : Value) (items : List Value) (rest : List Lexeme) (fuel : Nat)
    : readValue (fuel + 1) (.openArray :: itemLexemes (v :: items) ++ rest)
        = (readItems fuel (itemLexemes (v :: items) ++ rest)).map fun (items, rest) =>
            (.array items, rest) := by
  obtain ⟨later, front⟩ := itemLexemes_cons v items
  obtain ⟨lexeme, others, begins, other⟩ := v.lexemes_eq_cons
  rw [front, begins]
  simp only [List.cons_append]
  rw [readValue]
  exact fun _ same => other (List.cons.inj same).1

theorem memberLexemes_cons (member : Option String × Value) (members : List (Option String × Value))
    : ∃ rest, memberLexemes (member :: members) = .string member.1 :: rest := by
  cases members <;> exact ⟨_, rfl⟩

/-- An object that does not end at once is read by its members. -/
theorem readValue_openObject (member : Option String × Value)
    (members : List (Option String × Value)) (rest : List Lexeme) (fuel : Nat)
    : readValue (fuel + 1) (.openObject :: memberLexemes (member :: members) ++ rest)
        = (readMembers fuel (memberLexemes (member :: members) ++ rest)).map
            fun (members, rest) => (.object members, rest) := by
  obtain ⟨later, front⟩ := memberLexemes_cons member members
  rw [front]
  simp only [List.cons_append]
  rw [readValue]
  exact nofun

-- Every reader takes a unit of fuel for itself. A value is reached over at least one bracket, comma
-- or name, whose share of the fuel pays for the readers in between.
mutual

/-- A value is read from its lexemes, and what follows them is left. -/
theorem readValue_lexemes (v : Value) (rest : List Lexeme) (fuel : Nat)
    (enough : 2 * v.lexemes.length ≤ fuel)
    : readValue fuel (v.lexemes ++ rest) = some (v, rest) := by
  cases fuel with
  | zero =>
      obtain ⟨_, _, begins, _⟩ := v.lexemes_eq_cons
      simp [begins] at enough
  | succ fuel =>
      cases v with
      | null => rfl
      | bool b => rfl
      | number n => rfl
      | string text => rfl
      | array items =>
          cases items with
          | nil => rfl
          | cons v items =>
              simp only [Value.lexemes, List.length_append, List.length_cons, List.append_assoc,
                List.cons_append] at enough ⊢
              have read := readItems_lexemes v items rest fuel (by omega)
              have begins := readValue_openArray v items (.closeArray :: rest) fuel
              rw [List.cons_append] at begins
              rw [List.nil_append, begins, read]
              rfl
      | object members =>
          cases members with
          | nil => rfl
          | cons member members =>
              simp only [Value.lexemes, List.length_append, List.length_cons, List.append_assoc,
                List.cons_append] at enough ⊢
              have read := readMembers_lexemes member members rest fuel (by omega)
              have begins := readValue_openObject member members (.closeObject :: rest) fuel
              rw [List.cons_append] at begins
              rw [List.nil_append, begins, read]
              rfl
termination_by fuel

/-- Values with commas between them are read up to a closing bracket. -/
theorem readItems_lexemes (v : Value) (items : List Value) (rest : List Lexeme) (fuel : Nat)
    (enough : 2 * (itemLexemes (v :: items)).length + 1 ≤ fuel)
    : readItems fuel (itemLexemes (v :: items) ++ .closeArray :: rest)
        = some (v :: items, rest) := by
  cases fuel with
  | zero => contradiction
  | succ fuel =>
      cases items with
      | nil =>
          rw [itemLexemes] at enough ⊢
          rw [readItems, readValue_lexemes v (.closeArray :: rest) fuel (by omega)]
          rfl
      | cons w items =>
          simp only [itemLexemes, List.length_append, List.length_cons, List.append_assoc,
            List.cons_append] at enough ⊢
          have read := readValue_lexemes v
            (.comma :: (itemLexemes (w :: items) ++ .closeArray :: rest)) fuel (by omega)
          have later := readItems_lexemes w items rest fuel (by omega)
          rw [readItems, read, Option.bind_eq_bind, Option.bind_some]
          simp only [later]
          rfl
termination_by fuel

/-- Named values with commas between them are read up to a closing brace. -/
theorem readMembers_lexemes (member : Option String × Value)
    (members : List (Option String × Value)) (rest : List Lexeme) (fuel : Nat)
    (enough : 2 * (memberLexemes (member :: members)).length + 1 ≤ fuel)
    : readMembers fuel (memberLexemes (member :: members) ++ .closeObject :: rest)
        = some (member :: members, rest) := by
  obtain ⟨name, v⟩ := member
  cases fuel with
  | zero => contradiction
  | succ fuel =>
      cases members with
      | nil =>
          simp only [memberLexemes, List.length_cons, List.cons_append] at enough ⊢
          rw [readMembers, readValue_lexemes v (.closeObject :: rest) fuel (by omega)]
          rfl
      | cons other members =>
          simp only [memberLexemes, List.length_append, List.length_cons, List.append_assoc,
            List.cons_append] at enough ⊢
          have read := readValue_lexemes v
            (.comma :: (memberLexemes (other :: members) ++ .closeObject :: rest)) fuel (by omega)
          have later := readMembers_lexemes other members rest fuel (by omega)
          rw [readMembers, read, Option.bind_eq_bind, Option.bind_some]
          simp only [later]
          rfl
termination_by fuel

end

/-- A text spells the value whose lexemes it has. -/
theorem Value.parse?_eq {cs : List Char} {v : Value} (lexed : Lexes cs v.lexemes)
    : Value.parse? (String.ofList cs) = some v := by
  have read := readValue_lexemes v [] (2 * v.lexemes.length) (Nat.le_refl _)
  rw [List.append_nil] at read
  rw [Value.parse?, String.toList_ofList, lexed.lexemes?_eq, Option.bind_eq_bind, Option.bind_some,
    valueOf?, read]

end PagedIndex.Json
