import Mathlib
import PagedIndex.Text.Crc32

/-! Which changes a checksum tells. Shifting a bit out of the register is linear and loses nothing,
so bytes that follow a change never undo it, and four bytes in a row act on the register as one
word that is added to it. So a change within four bytes in a row always changes the checksum.
-/

namespace PagedIndex.Crc32

/-! ## Shifting -/

theorem shift_eq (register : UInt32)
    : shift register
      = if register.toNat % 2 = 1 then (register >>> 1) ^^^ polynomial else register >>> 1 := by
  have low : register &&& 1 = 1 ↔ register.toNat % 2 = 1 := by
    rw [← UInt32.toNat_inj, UInt32.toNat_and]
    exact Eq.congr_left (Nat.and_one_is_mod _)
  simp only [shift, low]

theorem toNat_half (register : UInt32) : (register >>> 1).toNat = register.toNat / 2 := by
  rw [UInt32.toNat_shiftRight]
  exact Nat.shiftRight_one _

/-- Shifting is linear: where both registers shift out a bit, the polynomial is added twice. -/
theorem shift_xor (a b : UInt32) : shift (a ^^^ b) = shift a ^^^ shift b := by
  have low : (a ^^^ b).toNat % 2 = 1 ↔ ¬(a.toNat % 2 = 1 ↔ b.toNat % 2 = 1) := by
    rw [UInt32.toNat_xor]
    exact Nat.xor_mod_two_eq_one
  have twice (x y p : UInt32) : (x ^^^ p) ^^^ (y ^^^ p) = x ^^^ y := by
    rw [UInt32.xor_assoc, UInt32.xor_comm y, ← UInt32.xor_assoc p, UInt32.xor_self, UInt32.zero_xor]
  simp only [shift_eq, low, UInt32.shiftRight_xor]
  by_cases left : a.toNat % 2 = 1 <;> by_cases right : b.toNat % 2 = 1
  · simp [left, right, twice]
  · simp [left, right, UInt32.xor_assoc, UInt32.xor_comm (b >>> 1)]
  · simp [left, right, UInt32.xor_assoc]
  · simp [left, right]

/-- No bit is lost by shifting, as the polynomial has the leading bit, which a half has not. -/
theorem eq_zero_of_shift_eq_zero {register : UInt32} (nothing : shift register = 0)
    : register = 0 := by
  have half := toNat_half register
  have word := register.toNat_lt
  rw [← UInt32.toNat_inj, UInt32.toNat_zero]
  rw [shift_eq] at nothing
  split at nothing
  next odd =>
    rw [UInt32.xor_eq_zero_iff] at nothing
    have leading : polynomial.toNat = 0xedb88320 := rfl
    rw [nothing, leading] at half
    omega
  next even =>
    rw [nothing, UInt32.toNat_zero] at half
    omega

theorem shift_injective : Function.Injective shift := by
  intro a b same
  have nothing : shift (a ^^^ b) = 0 := by rw [shift_xor, same, UInt32.xor_self]
  exact UInt32.xor_eq_zero_iff.mp (eq_zero_of_shift_eq_zero nothing)

theorem repeat_eq_iterate (n : Nat) (register : UInt32)
    : Nat.repeat shift n register = shift^[n] register := by
  induction n with
  | zero => rfl
  | succ n ih => rw [Nat.repeat, ih, Function.iterate_succ_apply']

theorem iterate_shift_xor (n : Nat) (a b : UInt32)
    : shift^[n] (a ^^^ b) = shift^[n] a ^^^ shift^[n] b := by
  induction n generalizing a b with
  | zero => rfl
  | succ n ih => rw [Function.iterate_succ_apply, shift_xor, ih]; rfl

/-- Zeros that are shifted out leave the rest as it is. -/
theorem toNat_iterate_shift {n : Nat} {register : UInt32} (clear : 2 ^ n ∣ register.toNat)
    : (shift^[n] register).toNat = register.toNat / 2 ^ n := by
  induction n generalizing register with
  | zero => simp
  | succ n ih =>
      obtain ⟨rest, whole⟩ := clear
      rw [Nat.pow_succ, Nat.mul_assoc, Nat.mul_left_comm] at whole
      have even : shift register = register >>> 1 := by
        rw [shift_eq, if_neg (by omega)]
      have half : (register >>> 1).toNat = 2 ^ n * rest := by
        rw [toNat_half, whole]
        omega
      rw [Function.iterate_succ_apply, even, ih ⟨rest, half⟩, toNat_half, Nat.div_div_eq_div_mul,
        Nat.pow_succ']

/-! ## Bytes in a row -/

theorem step_eq (register : UInt32) (byte : UInt8)
    : step register byte = shift^[8] (register ^^^ byte.toUInt32) := repeat_eq_iterate _ _

/-- Bytes that are taken in never hide a difference of the register. -/
theorem foldl_step_injective (bytes : List UInt8)
    : Function.Injective fun register => bytes.foldl step register := by
  induction bytes with
  | nil => exact fun _ _ same => same
  | cons byte rest ih =>
      intro a b same
      have stepped : step a byte = step b byte := ih same
      rw [step_eq, step_eq] at stepped
      exact (UInt32.xor_left_inj _).mp (shift_injective.iterate 8 stepped)

/-- Bytes as one word, least significant first. -/
def word : List UInt8 → UInt32
  | [] => 0
  | byte :: rest => byte.toUInt32 ^^^ (word rest <<< 8)

/-- A byte below the bits of a number is added to it. -/
theorem xor_eq_add {low : Nat} (byte : low < 256) (high : Nat)
    : low ^^^ 256 * high = low + 256 * high := by
  have quotient : (low ^^^ 256 * high) / 2 ^ 8 = high := by
    rw [Nat.xor_div_two_pow, Nat.div_eq_of_lt byte, Nat.zero_xor]
    exact Nat.mul_div_cancel_left high (by decide)
  have remainder : (low ^^^ 256 * high) % 2 ^ 8 = low := by
    rw [Nat.xor_mod_two_pow, Nat.mod_eq_of_lt byte]
    exact (congrArg _ (Nat.mul_mod_right _ _)).trans (Nat.xor_zero low)
  omega

theorem toNat_shiftLeft_byte {w : UInt32} (small : w.toNat < 256 ^ 3)
    : (w <<< 8).toNat = 256 * w.toNat := by
  rw [UInt32.toNat_shiftLeft]
  change w.toNat <<< 8 % 2 ^ 32 = _
  rw [Nat.shiftLeft_eq, Nat.mod_eq_of_lt (by omega), Nat.mul_comm]

theorem ofDigits_bytes_lt {bytes : List UInt8} (short : bytes.length ≤ 3)
    : Nat.ofDigits 256 (bytes.map (·.toNat)) < 256 ^ 3 := by
  refine (Nat.ofDigits_lt_base_pow_length (by decide) ?_).trans_le
    (Nat.pow_le_pow_right (by decide) ?_)
  · intro digit member
    obtain ⟨b, _, rfl⟩ := List.mem_map.mp member
    exact b.toNat_lt
  · simpa using short

/-- Up to four bytes fit a word, each in bits of its own. -/
theorem toNat_word {bytes : List UInt8} (short : bytes.length ≤ 4)
    : (word bytes).toNat = Nat.ofDigits 256 (bytes.map (·.toNat)) := by
  induction bytes with
  | nil => rfl
  | cons byte rest ih =>
      have shorter : rest.length ≤ 3 := Nat.le_of_succ_le_succ short
      have digits := ih (by omega)
      have small := ofDigits_bytes_lt shorter
      rw [← digits] at small
      rw [word, UInt32.toNat_xor, UInt8.toNat_toUInt32, toNat_shiftLeft_byte small,
        xor_eq_add byte.toNat_lt, digits, List.map_cons, Nat.ofDigits_cons]

theorem word_injective {xs ys : List UInt8} (short : xs.length ≤ 4)
    (size : xs.length = ys.length) (same : word xs = word ys)
    : xs = ys := by
  have digits := congrArg UInt32.toNat same
  rw [toNat_word short, toNat_word (size ▸ short)] at digits
  have byte {bytes : List UInt8} : ∀ digit ∈ bytes.map (·.toNat), digit < 256 := by
    intro digit member
    obtain ⟨b, _, rfl⟩ := List.mem_map.mp member
    exact b.toNat_lt
  have equal := Nat.ofDigits_inj_of_len_eq (by decide) (by simpa using size) byte byte digits
  exact List.map_injective_iff.mpr (fun _ _ => UInt8.toNat_inj.mp) equal

/-- What a word loses by shifting is what was moved up before. -/
theorem iterate_shift_shiftLeft {w : UInt32} (small : w.toNat < 256 ^ 3)
    : shift^[8] (w <<< 8) = w := by
  have moved := toNat_shiftLeft_byte small
  rw [← UInt32.toNat_inj, toNat_iterate_shift ⟨w.toNat, moved⟩, moved]
  exact Nat.mul_div_cancel_left _ (by decide)

/-- Bytes in a row act on the register as the one word that they make. -/
theorem foldl_step_eq {bytes : List UInt8} (short : bytes.length ≤ 4) (register : UInt32)
    : bytes.foldl step register = shift^[8 * bytes.length] (register ^^^ word bytes) := by
  induction bytes generalizing register with
  | nil => simp [word]
  | cons byte rest ih =>
      have shorter : rest.length ≤ 3 := Nat.le_of_succ_le_succ short
      have small : (word rest).toNat < 256 ^ 3 := by
        rw [toNat_word (by omega)]
        exact ofDigits_bytes_lt shorter
      calc rest.foldl step (step register byte)
        _ = shift^[8 * rest.length] (step register byte ^^^ word rest) := ih (by omega) _
        _ = shift^[8 * rest.length] (shift^[8] (register ^^^ word (byte :: rest))) := by
            rw [word, ← UInt32.xor_assoc, iterate_shift_xor 8, iterate_shift_shiftLeft small,
              step_eq]
        _ = shift^[8 * (rest.length + 1)] (register ^^^ word (byte :: rest)) := by
            rw [← Function.iterate_add_apply, Nat.mul_succ]

/-- Up to four bytes in a row leave a register that tells which they were. -/
theorem eq_of_foldl_step_eq {xs ys : List UInt8} (short : xs.length ≤ 4)
    (size : xs.length = ys.length) {register : UInt32}
    (same : xs.foldl step register = ys.foldl step register)
    : xs = ys := by
  rw [foldl_step_eq short, foldl_step_eq (size ▸ short), size] at same
  exact word_injective short size ((UInt32.xor_right_inj _).mp (shift_injective.iterate _ same))

/-! ## Checksums -/

/-- A change within four bytes in a row changes the checksum, whatever stands around them. -/
theorem eq_of_checksum_eq {before xs ys after : List UInt8} (short : xs.length ≤ 4)
    (size : xs.length = ys.length)
    (same : checksum (before ++ xs ++ after) = checksum (before ++ ys ++ after))
    : xs = ys := by
  simp only [checksum, UInt32.not_inj, List.foldl_append] at same
  exact eq_of_foldl_step_eq short size (foldl_step_injective after same)

/-- Four bytes spell one word only. -/
theorem littleEndian_injective : Function.Injective littleEndian := by
  intro a b same
  simp only [littleEndian, List.cons.injEq, and_true, ← UInt8.toNat_inj, UInt32.toNat_toUInt8,
    UInt32.toNat_shiftRight, UInt32.reduceToNat, Nat.reduceMod, Nat.shiftRight_eq_div_pow,
    Nat.reducePow] at same
  obtain ⟨first, second, third, fourth⟩ := same
  have wordA := a.toNat_lt
  have wordB := b.toNat_lt
  exact UInt32.toNat_inj.mp (by omega)

end PagedIndex.Crc32
