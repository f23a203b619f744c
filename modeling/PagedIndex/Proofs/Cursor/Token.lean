import Mathlib
import PagedIndex.Cursor.Token
import PagedIndex.Proofs.Text.Base64

/-! A cursor that is sent through its token comes back as the same cursor. -/

namespace PagedIndex

/-- Text of ASCII codes has these codes as its bytes. -/
theorem toUTF8_ofList_ascii {codes : List UInt8} (ascii : ∀ b ∈ codes, b.toNat < 128)
    : (String.ofList (codes.map fun b => Char.ofNat b.toNat)).toUTF8.data.toList = codes := by
  have single {b : UInt8} (bound : b.toNat < 128)
      : String.utf8EncodeChar (Char.ofNat b.toNat) = [b] := by
    have code : (Char.ofNat b.toNat).val.toNat = b.toNat := by
      rw [Char.ofNat, dif_pos (Or.inl (by omega))]
      rfl
    rw [String.utf8EncodeChar]
    simp only [code, if_pos (Nat.le_of_lt_succ bound), UInt8.ofNat_toNat]
  rw [String.toUTF8, String.toByteArray_ofList, List.utf8Encode, List.data_toByteArray,
    List.toList_toArray, List.flatMap_map]
  induction codes with
  | nil => rfl
  | cons b rest ih =>
      rw [List.flatMap_cons, single (ascii b (by simp)),
        ih fun c member => ascii c (by simp [member])]
      rfl

namespace Cursor

/-- A frame gives back the bytes that were framed. -/
theorem unframed_framed (bytes : List UInt8) : unframed (framed bytes) = .ok bytes := by
  have checksum : (Crc32.littleEndian (Crc32.checksum bytes)).length = 4 := rfl
  rw [unframed, framed]
  simp [checksum, List.drop_left' checksum, List.take_left' checksum]

theorem decodeToken_token (cursor : Cursor) : decodeToken cursor.token = .ok cursor := by
  rw [decodeToken, token, toUTF8_ofList_ascii fun b => Base64.lt_of_mem_encode,
    Base64.decode_encode]
  simp [Except.mapError, bind, Except.bind, unframed_framed, pure, Except.pure]

/-- A token stands for the cursor it was made of. -/
theorem ofToken_token (cursor : Cursor) : ofToken cursor.token = .ok cursor := by
  rw [ofToken, decodeToken_token]
  rfl

end Cursor

end PagedIndex
