import Mathlib

/-! The order of texts. Texts are ordered by code points, and that is the order of their UTF-8
bytes, since a greater code point has a greater byte where its encoding first differs, and no
encoding is the beginning of another.
-/

namespace PagedIndex.Text

/-- The UTF-8 bytes of a text, as numbers. -/
def utf8Bytes (s : String) : List Nat := s.toUTF8.data.toList.map (·.toNat)

/-- The UTF-8 bytes of a code point, as numbers. -/
def charBytes (c : Char) : List Nat := (String.utf8EncodeChar c).map (·.toNat)

theorem utf8Bytes_eq (s : String) : utf8Bytes s = s.toList.flatMap charBytes := by
  rw [utf8Bytes, String.toUTF8, ← String.utf8Encode_toList, List.utf8Encode, List.data_toByteArray,
    List.map_flatMap]
  rfl

/-- The bytes of a greater code point are greater, whatever follows them. -/
theorem charBytes_append_lt {c d : Char} (below : c < d) (s t : List Nat)
    : charBytes c ++ s < charBytes d ++ t := by
  have less : c.val.toNat < d.val.toNat := below
  have bound : d.val.toNat < 0x110000 := by
    rcases d.valid with low | high <;> omega
  unfold charBytes String.utf8EncodeChar
  generalize c.val.toNat = v at *
  generalize d.val.toNat = w at *
  simp only
  -- Encodings of unlike lengths differ in their first bytes already.
  split_ifs
  all_goals
    simp only [List.map_cons, List.map_nil, List.cons_append, List.nil_append,
      List.cons_lt_cons_iff, UInt8.toNat_ofNat']
    simp (disch := omega) only [Nat.mod_eq_of_lt]
    omega

theorem charBytes_ne_nil (c : Char) : charBytes c ≠ [] := by
  unfold charBytes String.utf8EncodeChar
  simp only
  split_ifs <;> simp

/-- A text that comes before another one has lesser bytes, by induction over both. -/
theorem flatMap_charBytes_lt {xs ys : List Char} (below : xs < ys)
    : xs.flatMap charBytes < ys.flatMap charBytes := by
  induction xs generalizing ys with
  | nil =>
      cases ys with
      | nil => exact absurd below (lt_irrefl _)
      | cons d ys =>
          obtain ⟨b, rest, bytes⟩ := List.exists_cons_of_ne_nil (charBytes_ne_nil d)
          rw [List.flatMap_nil, List.flatMap_cons, bytes]
          exact List.nil_lt_cons _ _
  | cons c xs ih =>
      cases ys with
      | nil => exact absurd below (List.not_lt_nil _)
      | cons d ys =>
          rw [List.flatMap_cons, List.flatMap_cons]
          rcases List.cons_lt_cons_iff.mp below with less | ⟨rfl, later⟩
          · exact charBytes_append_lt less _ _
          · exact List.append_left_lt (ih later)

theorem strictMono_utf8Bytes : StrictMono utf8Bytes := by
  intro s t below
  rw [utf8Bytes_eq, utf8Bytes_eq]
  exact flatMap_charBytes_lt (String.lt_iff_toList_lt.mp below)

end PagedIndex.Text
