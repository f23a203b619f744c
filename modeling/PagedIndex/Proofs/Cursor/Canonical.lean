import PagedIndex.Proofs.Cursor.Token
import PagedIndex.Proofs.Text.Base64.Canonical

/-! Tokens and cursors are in one-to-one correspondence: a text that is accepted is the token of the
cursor it is accepted as, so every other text is refused. A token is spelled with letters, digits,
hyphens and underscores.
-/

namespace PagedIndex

/-- The text of some ASCII codes. -/
def textOf (codes : List UInt8) : String := String.ofList (codes.map fun b => Char.ofNat b.toNat)

/-- A text whose bytes are ASCII codes is the text of these. -/
theorem eq_textOf {text : String} (ascii : ∀ b ∈ text.toUTF8.data.toList, b.toNat < 128)
    : text = textOf text.toUTF8.data.toList := by
  have bytes := toUTF8_ofList_ascii ascii
  refine String.toByteArray_inj.mp (ByteArray.ext (Array.toList_inj.mp ?_))
  exact bytes.symm

/-- Different ASCII codes make different texts. -/
theorem textOf_inj {codes others : List UInt8} (ascii : ∀ b ∈ codes, b.toNat < 128)
    (ascii' : ∀ b ∈ others, b.toNat < 128) (same : textOf codes = textOf others)
    : codes = others := by
  have bytes := congrArg (fun text => text.toUTF8.data.toList) same
  simp only [textOf] at bytes
  rwa [toUTF8_ofList_ascii ascii, toUTF8_ofList_ascii ascii'] at bytes

theorem length_textOf (codes : List UInt8) : (textOf codes).length = codes.length := by
  rw [textOf, String.length_ofList, List.length_map]

/-- Letters and digits of ASCII, hyphen and underscore. -/
def IsSymbol (c : Char) : Prop := c.isAlphanum = true ∨ c = '-' ∨ c = '_'

instance : DecidablePred IsSymbol := fun _ => inferInstanceAs (Decidable (_ ∨ _ ∨ _))

/-- The base64 of some bytes is spelled with symbols. -/
theorem isSymbol_of_mem_encode {bytes : List UInt8} {c : Char}
    (member : c ∈ (textOf (Base64.encode bytes)).toList) : IsSymbol c := by
  have table : ∀ n < 64, IsSymbol (Char.ofNat (Base64.symbol n).toNat) := by decide
  rw [textOf, String.toList_ofList, List.mem_map] at member
  obtain ⟨b, coded, rfl⟩ := member
  obtain ⟨n, there, rfl⟩ := List.mem_map.mp coded
  exact table n (Base64.split_lt there)

namespace Cursor

/-- A frame is accepted for the bytes that it frames. -/
theorem framed_of_unframed {frame bytes : List UInt8} (accepted : unframed frame = .ok bytes)
    : framed bytes = frame := by
  unfold unframed at accepted
  split at accepted
  next => simp at accepted
  next =>
    simp only at accepted
    split at accepted
    next checked =>
      obtain rfl := Except.ok.inj accepted
      rw [framed, ← checked, List.take_append_drop]
    next => simp at accepted

/-- A text that is accepted is the token of the cursor it is accepted as. -/
theorem token_of_decodeToken {text : String} {cursor : Cursor}
    (accepted : decodeToken text = .ok cursor) : cursor.token = text := by
  simp only [decodeToken, bind, Except.bind] at accepted
  cases decoded : Base64.decode text.toUTF8.data.toList with
  | error defect =>
      simp only [decoded, Except.mapError] at accepted
      contradiction
  | ok frame =>
      simp only [decoded, Except.mapError] at accepted
      cases checked : unframed frame with
      | error defect =>
          simp only [checked] at accepted
          contradiction
      | ok bytes =>
          simp only [checked, pure, Except.pure] at accepted
          obtain rfl := Except.ok.inj accepted
          have spelling : Base64.encode (framed bytes) = text.toUTF8.data.toList := by
            rw [framed_of_unframed checked, Base64.encode_of_decode decoded]
          have ascii : ∀ b ∈ text.toUTF8.data.toList, b.toNat < 128 := by
            intro b member
            exact Base64.lt_of_mem_encode (spelling ▸ member)
          calc Cursor.token ⟨⟨bytes⟩⟩ = textOf (Base64.encode (framed bytes)) := rfl
            _ = textOf text.toUTF8.data.toList := by rw [spelling]
            _ = text := (eq_textOf ascii).symm

theorem token_of_ofToken {text : String} {cursor : Cursor} (accepted : ofToken text = .ok cursor)
    : cursor.token = text := by
  unfold ofToken at accepted
  cases decoded : decodeToken text with
  | error defect => simp [decoded, Except.mapError] at accepted
  | ok other =>
      rw [decoded] at accepted
      obtain rfl := Except.ok.inj accepted
      exact token_of_decodeToken decoded

/-- A text that is no token is refused as malformed. -/
theorem malformed_of_ne_token {text : String} (apart : ∀ cursor : Cursor, cursor.token ≠ text)
    : ∃ reason, ofToken text = .error (.malformedCursor reason) := by
  cases decoded : decodeToken text with
  | error defect => exact ⟨defect.message, by rw [ofToken, decoded]; rfl⟩
  | ok cursor => exact absurd (token_of_decodeToken decoded) (apart cursor)

/-- The ways in which a text can be spoiled so that it is no token. -/
inductive Spoiled : String → Prop
  /-- A character that is no symbol, padding for example. -/
  | character {text : String} {c : Char} (member : c ∈ text.toList) (foreign : ¬ IsSymbol c)
    : Spoiled text
  /-- A length that no bytes have. -/
  | length {text : String} (impossible : text.length % 4 = 1) : Spoiled text
  /-- Symbols of which the last has bits that no byte uses. -/
  | bits {numbers : List Nat} (bound : ∀ n ∈ numbers, n < 64)
      (unused : Base64.unusedBits numbers.length (numbers.getLast?.getD 0) ≠ 0)
    : Spoiled (textOf (numbers.map Base64.symbol))
  /-- Bytes that are too few for a checksum. -/
  | frame {frame : List UInt8} (short : frame.length < 4) : Spoiled (textOf (Base64.encode frame))
  /-- A checksum that is not that of the bytes behind it. -/
  | checksum {head bytes : List UInt8} (size : head.length = 4)
      (wrong : head ≠ Crc32.littleEndian (Crc32.checksum bytes))
    : Spoiled (textOf (Base64.encode (head ++ bytes)))

/-- The bytes behind a token are those of its cursor's frame. -/
theorem frame_of_textOf_encode_eq {frame : List UInt8} {cursor : Cursor}
    (same : textOf (Base64.encode frame) = cursor.token)
    : frame = framed cursor.record.bytes :=
  Base64.encode_injective
    (textOf_inj (fun _ => Base64.lt_of_mem_encode) (fun _ => Base64.lt_of_mem_encode) same)

/-- No token is spoiled: its characters, its length and its unused bits are those of base64, and it
has a checksum, which is right.
-/
theorem not_spoiled_token (cursor : Cursor) : ¬ Spoiled cursor.token := by
  have token : cursor.token = textOf (Base64.encode (framed cursor.record.bytes)) := rfl
  intro spoiled
  generalize text : cursor.token = t at spoiled
  cases spoiled with
  | character member foreign =>
      rw [← text, token] at member
      exact foreign (isSymbol_of_mem_encode member)
  | length impossible =>
      rw [← text, token, length_textOf, Base64.encode, List.length_map] at impossible
      exact Base64.length_split_mod _ impossible
  | @bits numbers bound unused =>
      have ascii : ∀ b ∈ numbers.map Base64.symbol, b.toNat < 128 := by
        intro b member
        obtain ⟨n, there, rfl⟩ := List.mem_map.mp member
        exact Base64.symbol_lt (bound n there)
      have codes := textOf_inj ascii (fun _ => Base64.lt_of_mem_encode) (text.symm.trans token)
      have same := Base64.eq_of_map_symbol_eq bound (fun _ => Base64.split_lt) codes
      exact unused (same ▸ Base64.unusedBits_split _)
  | frame short =>
      have size : 4 ≤ (framed cursor.record.bytes).length := by simp [framed, Crc32.littleEndian]
      rw [frame_of_textOf_encode_eq text.symm] at short
      omega
  | checksum size wrong =>
      obtain ⟨rfl, rfl⟩ := List.append_inj (frame_of_textOf_encode_eq text.symm) size
      exact wrong rfl

/-- Tokens and cursors correspond to each other: every cursor is read back from its token, which is
spelled with symbols; a text that is accepted is the token of the cursor it is accepted as, so no
two texts name one cursor; and whatever is spoiled is refused.
-/
theorem tokens_correspond
    : (∀ cursor : Cursor,
        ofToken cursor.token = .ok cursor ∧ ∀ c ∈ cursor.token.toList, IsSymbol c)
      ∧ (∀ text cursor, ofToken text = .ok cursor → cursor.token = text)
      ∧ (∀ text other cursor, ofToken text = .ok cursor → ofToken other = .ok cursor
          → text = other)
      ∧ ∀ text, Spoiled text → ∃ reason, ofToken text = .error (.malformedCursor reason) := by
  refine ⟨?_, ?_, ?_, ?_⟩
  · intro cursor
    exact ⟨ofToken_token cursor, fun c => isSymbol_of_mem_encode⟩
  · intro text cursor
    exact token_of_ofToken
  · intro text other cursor accepted again
    exact (token_of_ofToken accepted).symm.trans (token_of_ofToken again)
  · intro text spoiled
    refine malformed_of_ne_token fun cursor same => ?_
    exact not_spoiled_token cursor (same ▸ spoiled)

/-- Another last symbol would stand for the same bytes, but is refused, and so is padding. -/
theorem token_correspondence_of_one
    : ofToken "G98FpQE" = .ok ⟨⟨[1]⟩⟩
      ∧ Cursor.token ⟨⟨[1]⟩⟩ = "G98FpQE"
      ∧ (∃ reason, ofToken "G98FpQF" = .error (.malformedCursor reason))
      ∧ ∃ reason, ofToken "G98FpQE=" = .error (.malformedCursor reason) := by
  obtain ⟨_, canonical, _, refused⟩ := tokens_correspond
  have accepted : ofToken "G98FpQE" = .ok ⟨⟨[1]⟩⟩ := by cbv
  have trailing : Spoiled (textOf ([6, 61, 60, 5, 41, 16, 5].map Base64.symbol)) :=
    .bits (by decide) (by decide)
  have padded : Spoiled "G98FpQE=" := .character (c := '=') (by decide) (by decide)
  exact ⟨accepted, canonical _ _ accepted, refused _ trailing, refused _ padded⟩

end Cursor

end PagedIndex
