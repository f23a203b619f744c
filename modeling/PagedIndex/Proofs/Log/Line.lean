import PagedIndex.Log.Line
import PagedIndex.Proofs.Json.Reading
import PagedIndex.Proofs.Text.Utf8Order

/-! What a log line says. No text that is put in a line can end it or leave the string it stands in,
so a line reads back as its members: event and severity, then the fields in the order of their
names. Lines of one event and severity are therefore the same if and only if their sorted fields
are.
-/

namespace PagedIndex.Log

open Json

theorem intercalate_cons_cons (separator : Char) (a b : List Char) (rest : List (List Char))
    : [separator].intercalate (a :: b :: rest)
        = a ++ separator :: [separator].intercalate (b :: rest) := by
  simp [List.intercalate]

/-! ## Control characters -/

theorem isControl_digit : ∀ n < 16, isControl (Hex.digit n) = false := by decide

theorem any_digits (width n : Nat) : (Hex.digits width n).any isControl = false := by
  induction width generalizing n with
  | zero => rfl
  | succ width ih =>
      rw [Hex.digits, List.any_append, ih, List.any_cons,
        isControl_digit (n % 16) (Nat.mod_lt _ (by decide))]
      rfl

/-- Escaping leaves no control character. -/
theorem any_escapeChar (c : Char) : (escapeChar c).any isControl = false := by
  unfold escapeChar
  split_ifs with quote backslash newline ret tab control
  iterate 5 decide
  · rw [List.any_cons, List.any_cons, any_digits]
    rfl
  · simpa using control

theorem any_quote (s : String) : (quote s).any isControl = false := by
  have text : (s.toList.flatMap escapeChar).any isControl = false := by
    rw [List.any_flatMap, List.any_eq_false]
    intro c _
    simp [any_escapeChar]
  rw [quote, List.cons_append, List.any_cons, List.any_append, text]
  rfl

theorem any_member (field : Field) : (member field).any isControl = false := by
  rw [member, List.any_append, List.any_cons, any_quote, any_quote]
  rfl

theorem any_members (fields : List Field)
    : ([','].intercalate (fields.map member)).any isControl = false := by
  induction fields with
  | nil => rfl
  | cons field fields ih =>
      cases fields with
      | nil => simp [List.intercalate, any_member]
      | cons other fields =>
          rw [List.map_cons, List.map_cons, intercalate_cons_cons, List.any_append, List.any_cons,
            any_member, ← List.map_cons, ih]
          rfl

/-- A line has no control character, so the newline after it is the only one. -/
theorem any_lineChars (severity : Severity) (event : String) (fields : List Field)
    : (lineChars severity event fields).any isControl = false := by
  rw [lineChars, List.cons_append, List.any_cons, List.any_append, any_members]
  rfl

/-! ## Reading a line -/

/-- Every character reads back from its escape. -/
theorem readsAs_escapeChar (c : Char) : ReadsAs (escapeChar c) c := by
  unfold escapeChar
  split_ifs with quote backslash newline ret tab control
  · rw [quote]
    exact readsAs_letter rfl
  · rw [backslash]
    exact readsAs_letter rfl
  · rw [newline]
    exact readsAs_letter rfl
  · rw [ret]
    exact readsAs_letter rfl
  · rw [tab]
    exact readsAs_letter rfl
  · -- Control characters end far below the surrogates.
    refine readsAs_digits ?_
    simp only [isControl, Bool.or_eq_true, Bool.and_eq_true, decide_eq_true_eq] at control
    omega
  · refine readsAs_self quote backslash ?_
    simp only [isControl, Bool.or_eq_true, Bool.and_eq_true, decide_eq_true_eq] at control
    omega

/-- The object whose members are fields. -/
def objectOf (fields : List Field) : Value :=
  .ofMembers (fields.map fun field => (field.1, .ofText field.2))

theorem objectOf_injective : Function.Injective objectOf := by
  intro fields others same
  simp only [objectOf, Value.ofMembers, Value.object.injEq, List.map_map] at same
  refine List.map_injective_iff.mpr (fun field other alike => ?_) same
  simp only [Function.comp_apply, Value.ofText, Prod.mk.injEq, Option.some.injEq,
    Value.string.injEq] at alike
  exact Prod.ext alike.1 alike.2

variable {rest : List Char} {lexemes : List Lexeme}

theorem lexes_member (field : Field) (later : Lexes rest lexemes)
    : Lexes (member field ++ rest)
        (.string (some field.1) :: .colon :: .string (some field.2) :: lexemes) := by
  have value := Lexes.string readsAs_escapeChar field.2 later
  have colon := Lexes.cons (c := ':') rfl rfl (le_refl _) value
  have name := Lexes.string readsAs_escapeChar field.1 colon
  simpa only [member, quote, List.cons_append, List.append_assoc, List.nil_append] using name

/-- Members with commas between them, by induction on them. -/
theorem lexes_members (fields : List Field) (later : Lexes rest lexemes)
    : Lexes ([','].intercalate (fields.map member) ++ rest)
        (memberLexemes (fields.map fun field => (some field.1, .ofText field.2)) ++ lexemes) := by
  induction fields with
  | nil => exact later
  | cons field fields ih =>
      cases fields with
      | nil => simpa [List.intercalate, memberLexemes] using lexes_member field later
      | cons other fields =>
          have comma := Lexes.cons (c := ',') rfl rfl (le_refl _) ih
          have first := lexes_member field comma
          rw [List.map_cons, List.map_cons, intercalate_cons_cons, List.append_assoc,
            List.cons_append]
          exact first

/-- A line spells the object of its members. -/
theorem parse?_line (severity : Severity) (event : String) (fields : List Field)
    : Value.parse? (line severity event fields)
        = some (objectOf (members severity event fields)) := by
  refine Value.parse?_eq ?_
  have close := Lexes.cons (c := '\x7d') rfl rfl (le_refl _) Lexes.nil
  have inner := lexes_members (members severity event fields) close
  have opened := Lexes.cons (c := '\x7b') rfl rfl (le_refl _) inner
  simpa only [lineChars, objectOf, Value.ofMembers, Value.lexemes, List.map_map,
    Function.comp_def, List.cons_append] using opened

/-! ## Sorted fields -/

theorem isLE_compare_iff (a b : Field)
    : (compare a.1 b.1).isLE = true ↔ Text.utf8Bytes a.1 ≤ Text.utf8Bytes b.1 := by
  rw [Text.strictMono_utf8Bytes.le_iff_le, Ordering.isLE_iff_ne_gt]
  exact compare_le_iff_le

theorem isLE_trans (a b c : Field) (left : (compare a.1 b.1).isLE = true)
    (right : (compare b.1 c.1).isLE = true)
    : (compare a.1 c.1).isLE = true := by
  rw [isLE_compare_iff] at *
  exact left.trans right

theorem isLE_total (a b : Field)
    : ((compare a.1 b.1).isLE || (compare b.1 a.1).isLE) = true := by
  rw [Bool.or_eq_true, isLE_compare_iff, isLE_compare_iff]
  exact le_total _ _

theorem sortFields_perm (fields : List Field) : (sortFields fields).Perm fields :=
  List.mergeSort_perm _ _

theorem pairwise_sortFields (fields : List Field)
    : (sortFields fields).Pairwise fun a b => Text.utf8Bytes a.1 ≤ Text.utf8Bytes b.1 :=
  (List.pairwise_mergeSort isLE_trans isLE_total fields).imp (isLE_compare_iff _ _).mp

/-- Fields of one name keep their order. -/
theorem filter_sortFields (fields : List Field) (name : String)
    : (sortFields fields).filter (·.1 = name) = fields.filter (·.1 = name) := by
  have alike : (fields.filter (·.1 = name)).Pairwise fun a b => (compare a.1 b.1).isLE = true := by
    refine List.pairwise_of_forall_mem_list fun a left b right => ?_
    simp only [List.mem_filter, decide_eq_true_eq] at left right
    rw [isLE_compare_iff, left.2, right.2]
  -- What is in order already stays as it is within the sorted list, which has no more of the name.
  have kept := (List.sublist_mergeSort isLE_trans isLE_total alike List.filter_sublist).filter
    (·.1 = name)
  rw [List.filter_filter] at kept
  simp only [Bool.and_self] at kept
  exact (kept.eq_of_length ((sortFields_perm fields).filter _).length_eq.symm).symm

/-- Fields with names of their own are sorted in one way. -/
theorem sortFields_eq_of_perm {fields others : List Field} (same : others.Perm fields)
    (single : (fields.map (·.1)).Nodup)
    : sortFields others = sortFields fields := by
  refine List.Perm.eq_of_pairwise ?_ (pairwise_sortFields others) (pairwise_sortFields fields)
    (((sortFields_perm others).trans same).trans (sortFields_perm fields).symm)
  intro a b left right le ge
  have name : a.1 = b.1 := Text.strictMono_utf8Bytes.injective (le_antisymm le ge)
  exact List.inj_on_of_nodup_map single
    (same.mem_iff.mp ((sortFields_perm others).mem_iff.mp left))
    ((sortFields_perm fields).mem_iff.mp right) name

/-! ## Lines -/

/-- For all texts, a log line is the text of an object of event, severity and sorted fields, and
has no control character; a newline ends it. The fields are sorted by the bytes of their names and
those of one name keep their order, so the order of fields with names of their own does not matter,
and lines of one event and severity that are the same have the same sorted fields.
-/
theorem lines_read_back (severity : Severity) (event : String) (fields : List Field)
    : (render severity event fields).toList = (line severity event fields).toList ++ ['\n']
      ∧ (∀ c ∈ (line severity event fields).toList, isControl c = false)
      ∧ Value.parse? (line severity event fields)
        = some (objectOf (("event", event) :: ("severity", severity.name) :: sortFields fields))
      ∧ (sortFields fields).Perm fields
      ∧ ((sortFields fields).Pairwise fun a b => Text.utf8Bytes a.1 ≤ Text.utf8Bytes b.1)
      ∧ (∀ name, (sortFields fields).filter (·.1 = name) = fields.filter (·.1 = name))
      ∧ (∀ others : List Field, others.Perm fields → (fields.map (·.1)).Nodup
          → render severity event others = render severity event fields)
      ∧ ∀ others : List Field, render severity event others = render severity event fields
          → sortFields others = sortFields fields := by
  refine ⟨by simp [render, line], ?_, parse?_line severity event fields, sortFields_perm fields,
    pairwise_sortFields fields, filter_sortFields fields, ?_, ?_⟩
  · rw [line, String.toList_ofList]
    simpa using any_lineChars severity event fields
  · intro others same single
    rw [render, render, lineChars, lineChars, members, members, sortFields_eq_of_perm same single]
  · intro others same
    have chars : lineChars severity event others = lineChars severity event fields :=
      List.append_cancel_right (String.ofList_injective same)
    have read := parse?_line severity event others
    rw [line, chars, ← line, parse?_line, Option.some.injEq] at read
    exact (List.cons.inj (List.cons.inj (objectOf_injective read)).2).2.symm

/-- Two orders of two fields make one line, which a value that holds the text of a member does not
make.
-/
theorem two_orders_of_two_fields
    : render .warn "SCAN" [("b", "2"), ("a", "1")] = render .warn "SCAN" [("a", "1"), ("b", "2")]
      ∧ sortFields [("b", "2"), ("a", "1")] = sortFields [("a", "1"), ("b", "2")]
      ∧ render .warn "SCAN" [("a", "1\",\"b\":\"2")]
        ≠ render .warn "SCAN" [("a", "1"), ("b", "2")] := by
  obtain ⟨_, _, _, _, _, _, ordered, told⟩ :=
    lines_read_back .warn "SCAN" [("a", "1"), ("b", "2")]
  have alike := ordered [("b", "2"), ("a", "1")] (List.Perm.swap _ _ _) (by decide)
  refine ⟨alike, told _ alike, fun forged => ?_⟩
  have sizes := congrArg List.length (told _ forged)
  simp [sortFields] at sizes

end PagedIndex.Log
