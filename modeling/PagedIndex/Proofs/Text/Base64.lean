import PagedIndex.Text.Base64

/-! The base64 of some bytes is read back as these bytes. The numbers of the bytes are packed three
to four and unpacked again; their symbols are all read, whether they fall into the last chunk or
not; and the last of them has no bits that go unused.
-/

namespace PagedIndex.Base64

/-! ## Symbols -/

theorem symbolValue?_symbol {n : Nat} (bound : n < 64) : symbolValue? (symbol n) = some n := by
  have table : ∀ n < 64, symbolValue? (symbol n) = some n := by decide
  exact table n bound

/-- No symbol is the padding byte. -/
theorem symbol_ne_pad {n : Nat} (bound : n < 64) : symbol n ≠ pad := by
  have table : ∀ n < 64, symbol n ≠ pad := by decide
  exact table n bound

/-- Symbols are ASCII codes. -/
theorem symbol_lt {n : Nat} (bound : n < 64) : (symbol n).toNat < 128 := by
  have table : ∀ n < 64, (symbol n).toNat < 128 := by decide
  exact table n bound

/-! ## Numbers -/

theorem split_lt {bytes : List UInt8} {n : Nat} (member : n ∈ split bytes) : n < 64 := by
  fun_induction split bytes with
  | case1 x y z rest packed ih =>
      have := x.toNat_lt
      have := y.toNat_lt
      have := z.toNat_lt
      simp only [List.mem_cons] at member
      rcases member with rfl | rfl | rfl | rfl | later
      all_goals first | exact ih later | omega
  | case2 x y packed =>
      have := x.toNat_lt
      have := y.toNat_lt
      simp only [List.mem_cons, List.not_mem_nil, or_false] at member
      omega
  | case3 x packed =>
      have := x.toNat_lt
      simp only [List.mem_cons, List.not_mem_nil, or_false] at member
      omega
  | case4 => exact absurd member List.not_mem_nil

/-- Bytes that are packed into numbers are unpacked again. -/
theorem join_split (bytes : List UInt8) : join (split bytes) = bytes := by
  have byte {b : UInt8} {n : Nat} (same : n = b.toNat) : UInt8.ofNat n = b := by
    rw [same, UInt8.ofNat_toNat]
  fun_induction split bytes with
  | case1 x y z rest packed ih =>
      have := x.toNat_lt
      have := y.toNat_lt
      have := z.toNat_lt
      rw [join, ih, byte (b := x) (by omega), byte (b := y) (by omega), byte (b := z) (by omega)]
  | case2 x y packed =>
      have := x.toNat_lt
      have := y.toNat_lt
      rw [join, byte (b := x) (by omega), byte (b := y) (by omega)]
  | case3 x packed =>
      have := x.toNat_lt
      rw [join, byte (b := x) (by omega)]
  | case4 => rfl

/-- No number of bytes is packed into one number more than a multiple of four. -/
theorem length_split_mod (bytes : List UInt8) : (split bytes).length % 4 ≠ 1 := by
  fun_induction split bytes with
  | case1 x y z rest packed ih =>
      simp only [List.length_cons]
      omega
  | case2 => simp
  | case3 => simp
  | case4 => simp

/-- The last number has no bits but those of bytes. -/
theorem unusedBits_split (bytes : List UInt8)
    : unusedBits (split bytes).length ((split bytes).getLast?.getD 0) = 0 := by
  fun_induction split bytes with
  | case1 x y z rest packed ih =>
      cases tail : split rest with
      | nil => simp [unusedBits]
      | cons a more =>
          rw [tail] at ih
          have turn : (more.length + 1 + 1 + 1 + 1 + 1) % 4 = (more.length + 1) % 4 := by omega
          simpa only [unusedBits, List.length_cons, List.getLast?_cons_cons, turn] using ih
  | case2 x y packed =>
      simp only [unusedBits, List.length_cons, List.length_nil, List.getLast?_cons_cons,
        List.getLast?_singleton, Option.getD_some]
      omega
  | case3 x packed =>
      simp only [unusedBits, List.length_cons, List.length_nil, List.getLast?_cons_cons,
        List.getLast?_singleton, Option.getD_some]
      omega
  | case4 => rfl

/-! ## Texts -/

/-- Wherever symbols stand, their numbers are read. -/
theorem values_map_symbol {numbers : List Nat} (bound : ∀ n ∈ numbers, n < 64) (offset : Nat)
    : values offset (numbers.map symbol) = .ok numbers := by
  induction numbers generalizing offset with
  | nil => rfl
  | cons n rest ih =>
      rw [List.map_cons, values, symbolValue?_symbol (bound n (by simp))]
      simp only [ih fun m member => bound m (by simp [member])]
      rfl

theorem lastValues_map_symbol {numbers : List Nat} (bound : ∀ n ∈ numbers, n < 64) (offset : Nat)
    : lastValues offset none (numbers.map symbol) = .ok numbers := by
  induction numbers generalizing offset with
  | nil => rfl
  | cons n rest ih =>
      rw [List.map_cons, lastValues, if_neg (symbol_ne_pad (bound n (by simp))),
        symbolValue?_symbol (bound n (by simp))]
      simp only [ih fun m member => bound m (by simp [member])]
      rfl

/-- Every byte of a base64 text is an ASCII code. -/
theorem lt_of_mem_encode {bytes : List UInt8} {b : UInt8} (member : b ∈ encode bytes)
    : b.toNat < 128 := by
  obtain ⟨n, there, rfl⟩ := List.mem_map.mp member
  exact symbol_lt (split_lt there)

/-- What was encoded is decoded. -/
theorem decode_encode (bytes : List UInt8) : decode (encode bytes) = .ok bytes := by
  have first (start : Nat)
      : values 0 ((encode bytes).take start) = .ok ((split bytes).take start) := by
    rw [encode, ← List.map_take]
    exact values_map_symbol (fun n member => split_lt (List.mem_of_mem_take member)) 0
  have second (start : Nat)
      : lastValues start none ((encode bytes).drop start) = .ok ((split bytes).drop start) := by
    rw [encode, ← List.map_drop]
    exact lastValues_map_symbol (fun n member => split_lt (List.mem_of_mem_drop member)) start
  have size : (encode bytes).length = (split bytes).length := List.length_map _
  have possible : ¬(encode bytes).length % 4 = 1 := size ▸ length_split_mod bytes
  rw [decode, if_neg possible]
  simp [first, second, bind, Except.bind, pure, Except.pure, size, unusedBits_split, join_split]

end PagedIndex.Base64
