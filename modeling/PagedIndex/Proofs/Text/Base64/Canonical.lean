import PagedIndex.Proofs.Text.Base64

/-! A base64 text is the only one for its bytes: whatever is decoded, encoding the bytes gives the
text back. Each byte of the text is the symbol of the number it was read as, no padding was
accepted, and packing loses nothing of numbers whose unused bits are zero.
-/

namespace PagedIndex.Base64

/-! ## Symbols -/

/-- What is read as a number is the symbol of that number. -/
theorem symbol_of_symbolValue? {b : UInt8} {n : Nat} (read : symbolValue? b = some n)
    : n < 64 ∧ symbol n = b := by
  have table : ∀ m < 256, (symbolValue? (UInt8.ofNat m)).all fun n =>
      decide (n < 64) && symbol n == UInt8.ofNat m := by decide +kernel
  have own := table b.toNat b.toNat_lt
  rw [UInt8.ofNat_toNat, read] at own
  simpa using own

/-- Numbers that a text can spell. -/
def Spelled (numbers : List Nat) (text : List UInt8) : Prop :=
  (∀ n ∈ numbers, n < 64) ∧ numbers.map symbol = text

theorem Spelled.cons {numbers : List Nat} {text : List UInt8} {b : UInt8} {n : Nat}
    (rest : Spelled numbers text) (read : symbolValue? b = some n)
    : Spelled (n :: numbers) (b :: text) := by
  obtain ⟨bound, same⟩ := symbol_of_symbolValue? read
  refine ⟨?_, by rw [List.map_cons, same, rest.2]⟩
  intro m member
  rcases List.mem_cons.mp member with rfl | later
  · exact bound
  · exact rest.1 m later

theorem Spelled.append {first second : List Nat} {text more : List UInt8}
    (h : Spelled first text) (g : Spelled second more)
    : Spelled (first ++ second) (text ++ more) := by
  refine ⟨?_, by rw [List.map_append, h.2, g.2]⟩
  intro n member
  rcases List.mem_append.mp member with left | right
  · exact h.1 n left
  · exact g.1 n right

/-- Numbers that were read are spelled by the text. -/
theorem spelled_of_values {offset : Nat} {text : List UInt8} {numbers : List Nat}
    (read : values offset text = .ok numbers) : Spelled numbers text := by
  induction text generalizing offset numbers with
  | nil =>
      obtain rfl := Except.ok.inj read
      exact ⟨nofun, rfl⟩
  | cons b rest ih =>
      simp only [values] at read
      cases value : symbolValue? b with
      | none => simp [value] at read
      | some n =>
          cases tail : values (offset + 1) rest with
          | error defect => simp [value, tail, Except.map] at read
          | ok others =>
              simp only [value, tail, Except.map, Except.ok.injEq] at read
              exact read ▸ (ih tail).cons value

/-- Once padding was seen, nothing is accepted any more. -/
theorem lastValues_padding_ne_ok (offset first : Nat) (text : List UInt8) (numbers : List Nat)
    : lastValues offset (some first) text ≠ .ok numbers := by
  induction text generalizing offset with
  | nil => simp [lastValues]
  | cons b rest ih =>
      simp only [lastValues]
      split
      · split
        · simp
        · exact ih (offset + 1)
      · simp

theorem spelled_of_lastValues {offset : Nat} {text : List UInt8} {numbers : List Nat}
    (read : lastValues offset none text = .ok numbers) : Spelled numbers text := by
  induction text generalizing offset numbers with
  | nil =>
      obtain rfl := Except.ok.inj read
      exact ⟨nofun, rfl⟩
  | cons b rest ih =>
      simp only [lastValues] at read
      split at read
      · split at read
        · simp at read
        · exact absurd read (lastValues_padding_ne_ok _ _ _ _)
      · cases value : symbolValue? b with
        | none => simp [value] at read
        | some n =>
            cases tail : lastValues (offset + 1) none rest with
            | error defect => simp [value, tail, Except.map] at read
            | ok others =>
                simp only [value, tail, Except.map, Except.ok.injEq] at read
                exact read ▸ (ih tail).cons value

/-! ## Numbers -/

/-- Four more numbers in front do not change which bits of the last one go unused. -/
theorem unusedBits_cons_four (a b c d : Nat) {rest : List Nat} (more : rest ≠ [])
    : unusedBits (a :: b :: c :: d :: rest).length ((a :: b :: c :: d :: rest).getLast?.getD 0)
      = unusedBits rest.length (rest.getLast?.getD 0) := by
  obtain ⟨x, others, rfl⟩ := List.exists_cons_of_ne_nil more
  have turn : (others.length + 1 + 1 + 1 + 1 + 1) % 4 = (others.length + 1) % 4 := by omega
  simp only [unusedBits, List.length_cons, List.getLast?_cons_cons, turn]

/-- Numbers that are unpacked without a rest are packed again. -/
theorem split_join {numbers : List Nat} (bound : ∀ n ∈ numbers, n < 64)
    (possible : numbers.length % 4 ≠ 1)
    (unused : unusedBits numbers.length (numbers.getLast?.getD 0) = 0)
    : split (join numbers) = numbers := by
  fun_induction join numbers with
  | case1 a b c d rest packed ih =>
      have := bound a (by simp)
      have := bound b (by simp)
      have := bound c (by simp)
      have := bound d (by simp)
      have tail : split (join rest) = rest := by
        by_cases more : rest = []
        · subst more
          rfl
        · rw [unusedBits_cons_four a b c d more] at unused
          refine ih (fun n member => bound n (by simp [member])) ?_ unused
          simp only [List.length_cons] at possible
          omega
      rw [split, tail]
      simp only [UInt8.toNat_ofNat', List.cons.injEq, and_true]
      omega
  | case2 a b c packed =>
      have := bound a (by simp)
      have := bound b (by simp)
      have := bound c (by simp)
      have zero : c % 4 = 0 := by simpa [unusedBits] using unused
      rw [split]
      simp only [UInt8.toNat_ofNat', List.cons.injEq, and_true]
      omega
  | case3 a b =>
      have := bound a (by simp)
      have := bound b (by simp)
      have zero : b % 16 = 0 := by simpa [unusedBits] using unused
      rw [split]
      simp only [UInt8.toNat_ofNat', List.cons.injEq, and_true]
      omega
  | case4 short four three two =>
      cases short with
      | nil => rfl
      | cons a rest =>
          cases rest with
          | nil => simp at possible
          | cons b rest =>
              cases rest with
              | nil => exact absurd rfl (two a b)
              | cons c rest =>
                  cases rest with
                  | nil => exact absurd rfl (three a b c)
                  | cons d rest => exact absurd rfl (four a b c d rest)

/-! ## Texts -/

/-- What was decoded is the encoding of its bytes. -/
theorem encode_of_decode {text bytes : List UInt8} (decoded : decode text = .ok bytes)
    : encode bytes = text := by
  simp only [decode] at decoded
  split at decoded
  next => split at decoded <;> simp at decoded
  next possible =>
    generalize start : (text.length - 1) / 8 * 8 = n at decoded
    cases first : values 0 (text.take n) with
    | error defect => simp [first, bind, Except.bind] at decoded
    | ok front =>
        cases second : lastValues n none (text.drop n) with
        | error defect => simp [first, second, bind, Except.bind] at decoded
        | ok back =>
            simp only [first, second, bind, Except.bind, pure, Except.pure] at decoded
            have whole := (spelled_of_values first).append (spelled_of_lastValues second)
            rw [List.take_append_drop] at whole
            obtain ⟨bound, spelling⟩ := whole
            have size : text.length = (front ++ back).length := by rw [← spelling, List.length_map]
            split at decoded
            next => simp at decoded
            next unused =>
              obtain rfl := Except.ok.inj decoded
              rw [size] at possible unused
              rw [encode, split_join bound possible (Decidable.not_not.mp unused), spelling]

/-- Different bytes have different encodings. -/
theorem encode_injective : Function.Injective encode := by
  intro bytes others same
  have decoded := congrArg decode same
  rw [decode_encode, decode_encode] at decoded
  exact Except.ok.inj decoded

/-- Different numbers are spelled differently. -/
theorem eq_of_map_symbol_eq {numbers others : List Nat} (bound : ∀ n ∈ numbers, n < 64)
    (bound' : ∀ n ∈ others, n < 64) (same : numbers.map symbol = others.map symbol)
    : numbers = others := by
  have read := congrArg (values 0) same
  rw [values_map_symbol bound, values_map_symbol bound'] at read
  exact Except.ok.inj read

end PagedIndex.Base64
