import PagedIndex.Proofs.Cursor.Canonical
import PagedIndex.Proofs.Text.Crc32

/-! Tokens that were mangled on their way. Whatever happens to the checksum of a token alone, or to
at most four bytes in a row behind it, the text that comes of it is refused for its checksum.
-/

namespace PagedIndex

/-- Byte strings of one length that agree at all places but those from `low` up to `high`. -/
structure AgreeOutside (low high : Nat) (xs ys : List UInt8) : Prop where
  length_eq : xs.length = ys.length
  same : ∀ i, i < low ∨ high ≤ i → xs[i]? = ys[i]?

namespace AgreeOutside

variable {low high : Nat} {xs ys : List UInt8}

theorem take_eq (h : AgreeOutside low high xs ys) : xs.take low = ys.take low := by
  refine List.ext_getElem? fun i => ?_
  by_cases before : i < low
  · rw [List.getElem?_take_of_lt before, List.getElem?_take_of_lt before, h.same i (Or.inl before)]
  · rw [List.getElem?_take_eq_none (by omega), List.getElem?_take_eq_none (by omega)]

theorem drop_eq (h : AgreeOutside low high xs ys) : xs.drop high = ys.drop high := by
  refine List.ext_getElem? fun i => ?_
  rw [List.getElem?_drop, List.getElem?_drop, h.same _ (Or.inr (Nat.le_add_right high i))]

/-- What lies behind agreeing bytes agrees in the same way. -/
theorem drop (n : Nat) (h : AgreeOutside (n + low) (n + high) xs ys)
    : AgreeOutside low high (xs.drop n) (ys.drop n) where
  length_eq := by rw [List.length_drop, List.length_drop, h.length_eq]
  same i outside := by
    rw [List.getElem?_drop, List.getElem?_drop]
    exact h.same (n + i) (by omega)

/-- A checksum tells byte strings apart that differ within four places in a row. -/
theorem eq_of_checksum_eq {start : Nat} (h : AgreeOutside start (start + 4) xs ys)
    (checksum : Crc32.checksum xs = Crc32.checksum ys)
    : xs = ys := by
  have parts (bytes : List UInt8)
      : bytes = bytes.take start ++ (bytes.drop start).take 4 ++ bytes.drop (start + 4) := by
    rw [List.append_assoc, ← List.drop_drop, List.take_append_drop, List.take_append_drop]
  have size : ((xs.drop start).take 4).length = ((ys.drop start).take 4).length := by
    rw [List.length_take, List.length_take, List.length_drop, List.length_drop, h.length_eq]
  rw [parts xs, parts ys, h.take_eq, h.drop_eq] at checksum
  have window := Crc32.eq_of_checksum_eq (List.length_take_le 4 _) size checksum
  rw [parts xs, parts ys, h.take_eq, h.drop_eq, window]

end AgreeOutside

namespace Cursor

theorem length_checksum (bytes : List UInt8)
    : (Crc32.littleEndian (Crc32.checksum bytes)).length = 4 := rfl

theorem take_framed (bytes : List UInt8)
    : (framed bytes).take 4 = Crc32.littleEndian (Crc32.checksum bytes) :=
  List.take_left' (length_checksum bytes)

theorem drop_framed (bytes : List UInt8) : (framed bytes).drop 4 = bytes :=
  List.drop_left' (length_checksum bytes)

variable {bytes frame : List UInt8}

/-- With another checksum bytes are refused. -/
theorem checksum_ne_of_head_changed (changed : frame ≠ framed bytes)
    (head : AgreeOutside 0 4 frame (framed bytes))
    : frame.take 4 ≠ Crc32.littleEndian (Crc32.checksum (frame.drop 4)) := by
  intro accepted
  have rest : frame.drop 4 = bytes := head.drop_eq.trans (drop_framed bytes)
  rw [rest] at accepted
  refine changed ?_
  rw [framed, ← accepted, ← rest, List.take_append_drop]

/-- With other bytes in up to four places in a row the checksum is not theirs. -/
theorem checksum_ne_of_tail_changed (changed : frame ≠ framed bytes) {start : Nat}
    (tail : AgreeOutside (4 + start) (4 + (start + 4)) frame (framed bytes))
    : frame.take 4 ≠ Crc32.littleEndian (Crc32.checksum (frame.drop 4)) := by
  intro accepted
  have head : frame.take 4 = (framed bytes).take 4 := by
    have longer := congrArg (List.take 4) tail.take_eq
    rwa [List.take_take, List.take_take, Nat.min_eq_left (Nat.le_add_right 4 start)] at longer
  have checksum : Crc32.checksum (frame.drop 4) = Crc32.checksum ((framed bytes).drop 4) := by
    rw [drop_framed]
    refine Crc32.littleEndian_injective ?_
    rw [← accepted, head, take_framed]
  have rest := (tail.drop 4).eq_of_checksum_eq checksum
  refine changed ?_
  rw [← List.take_append_drop 4 frame, head, rest, List.take_append_drop]

/-- A frame is refused for its checksum if this is not that of the bytes behind it. -/
theorem ofToken_of_checksum_ne (size : frame.length = (framed bytes).length)
    (wrong : frame.take 4 ≠ Crc32.littleEndian (Crc32.checksum (frame.drop 4)))
    : ofToken (textOf (Base64.encode frame)) = .error (.malformedCursor "checksum mismatch") := by
  have long : ¬frame.length < 4 := by
    rw [size, framed, List.length_append, length_checksum]
    omega
  have refused : unframed frame = .error .checksumMismatch := by
    rw [unframed, if_neg long]
    exact if_neg wrong
  rw [ofToken, decodeToken, textOf, toUTF8_ofList_ascii fun b => Base64.lt_of_mem_encode,
    Base64.decode_encode]
  simp only [Except.mapError, bind, Except.bind, refused]
  rfl

/-- Take the bytes of any cursor behind their checksum, and change either bytes of the checksum
only, or bytes within four places in a row behind it only: the base64 of what comes of it is refused
for its checksum.
-/
theorem corruption_detected (changed : frame ≠ framed bytes)
    (confined : AgreeOutside 0 4 frame (framed bytes)
      ∨ ∃ start, AgreeOutside (4 + start) (4 + (start + 4)) frame (framed bytes))
    : ofToken (textOf (Base64.encode frame)) = .error (.malformedCursor "checksum mismatch") := by
  rcases confined with head | ⟨start, tail⟩
  · exact ofToken_of_checksum_ne head.length_eq (checksum_ne_of_head_changed changed head)
  · exact ofToken_of_checksum_ne tail.length_eq (checksum_ne_of_tail_changed changed tail)

/-- In the frame of "user/42" the "r" and the "2", which are four places apart, are mangled, and in
another one the first byte of the checksum.
-/
theorem corruption_of_user_detected
    : framed [117, 115, 101, 114, 47, 52, 50]
        = [29, 108, 130, 126, 117, 115, 101, 114, 47, 52, 50]
      ∧ ofToken (textOf (Base64.encode [29, 108, 130, 126, 117, 115, 101, 0, 47, 52, 255]))
        = .error (.malformedCursor "checksum mismatch")
      ∧ ofToken (textOf (Base64.encode [0, 108, 130, 126, 117, 115, 101, 114, 47, 52, 50]))
        = .error (.malformedCursor "checksum mismatch") := by
  have frame : framed [117, 115, 101, 114, 47, 52, 50]
      = [29, 108, 130, 126, 117, 115, 101, 114, 47, 52, 50] := by decide +kernel
  refine ⟨frame, ?_, ?_⟩
  · have tail : AgreeOutside (4 + 3) (4 + (3 + 4))
        [29, 108, 130, 126, 117, 115, 101, 0, 47, 52, 255]
        [29, 108, 130, 126, 117, 115, 101, 114, 47, 52, 50] := by
      refine ⟨rfl, fun i outside => ?_⟩
      rcases outside with before | behind
      · interval_cases i <;> rfl
      · rw [List.getElem?_eq_none behind, List.getElem?_eq_none behind]
    rw [← frame] at tail
    exact corruption_detected (by rw [frame]; decide) (Or.inr ⟨3, tail⟩)
  · have head : AgreeOutside 0 4 [0, 108, 130, 126, 117, 115, 101, 114, 47, 52, 50]
        [29, 108, 130, 126, 117, 115, 101, 114, 47, 52, 50] := by
      refine ⟨rfl, fun i outside => ?_⟩
      obtain ⟨j, rfl⟩ := Nat.exists_eq_add_of_le (outside.resolve_left (Nat.not_lt_zero i))
      rw [Nat.add_comm]
      rfl
    rw [← frame] at head
    exact corruption_detected (by rw [frame]; decide) (Or.inl head)

end Cursor

end PagedIndex
