import PagedIndex.Config
import PagedIndex.Cursor.Json
import PagedIndex.Key.Json
import PagedIndex.Proofs.Json.Compact
import PagedIndex.Proofs.Json.Numbers
import PagedIndex.Proofs.Key.Digest

/-! Stored forms. Keys, record keys, cursors and configurations are written as JSON text, and
reading that text gives back what was written, down to the bits of a real. A configuration that is
read back passes its validation or fails it as the written one does.
-/

namespace PagedIndex

namespace Json.Value

/-! ## Typed values -/

theorem proper_ofText (s : String) : (ofText s).Proper := .string _

theorem proper_ofNat (n : Nat) : (ofNat n).Proper := .number nofun

theorem proper_ofInt (i : Int) : (ofInt i).Proper := .number nofun

theorem proper_ofBytes (bytes : List UInt8) : (ofBytes bytes).Proper := by
  refine .array fun v member => ?_
  obtain ⟨b, _, rfl⟩ := List.mem_map.mp member
  exact proper_ofNat b.toNat

theorem proper_ofMembers {members : List (String × Value)} (each : ∀ m ∈ members, m.2.Proper)
    : (ofMembers members).Proper := by
  refine .object fun _ named => ?_
  obtain ⟨m, member, rfl⟩ := List.mem_map.mp named
  exact each m member

theorem intBetween?_ofInt {low high i : Int} (range : low ≤ i ∧ i ≤ high)
    : (ofInt i).intBetween? low high = some i := by
  simp [intBetween?, ofInt, Numeral.toInt?_ofInt, range]

theorem intBetween?_ofNat {high : Int} {n : Nat} (range : n ≤ high)
    : (ofNat n).intBetween? 0 high = some (n : Int) := by
  simp [intBetween?, ofNat, Numeral.toInt?_ofNat, range]

theorem int64?_ofInt (i : Int64) : (ofInt i.toInt).int64? = some i := by
  rw [int64?, intBetween?_ofInt, Option.map_some, Int64.ofInt_toInt]
  have low := i.le_toInt
  have high := i.toInt_lt
  rw [Int64.toInt_minValue, Int64.toInt_maxValue]
  omega

theorem uint64?_ofNat (n : UInt64) : (ofNat n.toNat).uint64? = some n := by
  rw [uint64?, intBetween?_ofNat, Option.map_some, Int.toNat_natCast, UInt64.ofNat_toNat]
  have := n.toNat_lt
  have size : UInt64.size = 2 ^ 64 := rfl
  omega

theorem byte?_ofNat (b : UInt8) : (ofNat b.toNat).byte? = some b := by
  rw [byte?, intBetween?_ofNat, Option.map_some, Int.toNat_natCast, UInt8.ofNat_toNat]
  have := b.toNat_lt
  omega

theorem bytes?_ofBytes (bytes : List UInt8) : (ofBytes bytes).bytes? = some bytes := by
  rw [ofBytes, bytes?]
  induction bytes with
  | nil => rfl
  | cons b bytes ih =>
      rw [List.map_cons, List.mapM_cons, byte?_ofNat, ih]
      rfl

/-- What the typed reader makes of a proper value is read from the text of the value. -/
theorem Proper.read_render {v : Value} (proper : v.Proper) (read : Value → Option α)
    : (parse? v.render).bind read = read v := by
  rw [proper.parse?_render, Option.bind_some]

end Json.Value

open Json

/-! ## Keys and cursors -/

namespace Key

theorem proper_toJson (key : Key) : key.toJson.Proper := by
  cases key with
  | null => exact Value.proper_ofText _
  | bool b => exact Value.proper_ofMembers (by simpa using .bool b)
  | int i => exact Value.proper_ofMembers (by simpa using Value.proper_ofInt _)
  | real code => exact Value.proper_ofMembers (by simpa using Value.proper_ofNat _)
  | text s => exact Value.proper_ofMembers (by simpa using Value.proper_ofText _)

/-- The tagged form of a key is read as the key. -/
theorem ofJson?_toJson (key : Key) : ofJson? key.toJson = some key := by
  cases key with
  | null => rfl
  | bool b => rfl
  | int i =>
      change (do return Key.int (← (Value.ofInt i.toInt).int64?)) = _
      rw [Value.int64?_ofInt]
      rfl
  | real code =>
      change (do return Key.real (← (Value.ofNat code.toNat).uint64?)) = _
      rw [Value.uint64?_ofNat]
      rfl
  | text s => rfl

end Key

theorem RecordKey.proper_toJson (key : RecordKey) : key.toJson.Proper :=
  Value.proper_ofBytes key.bytes

theorem RecordKey.ofJson?_toJson (key : RecordKey) : ofJson? key.toJson = some key := by
  rw [toJson, ofJson?, Value.bytes?_ofBytes, Option.map_some]

theorem Cursor.proper_toJson (cursor : Cursor) : cursor.toJson.Proper :=
  cursor.record.proper_toJson

theorem Cursor.ofJson?_toJson (cursor : Cursor) : ofJson? cursor.toJson = some cursor := by
  rw [toJson, ofJson?, RecordKey.ofJson?_toJson, Option.map_some]

/-! ## Configurations -/

theorem Visibility.ofJson?_toJson (v : Visibility) : ofJson? v.toJson = some v := by
  cases v <;> rfl

namespace Config

theorem proper_toJson (c : Config) : c.toJson.Proper := by
  refine Value.proper_ofMembers fun m member => ?_
  simp only [List.mem_cons, List.not_mem_nil, or_false] at member
  rcases member with rfl | rfl | rfl | rfl
  · exact Value.proper_ofText _
  · exact Value.proper_ofNat _
  · exact Value.proper_ofNat _
  · exact Value.proper_ofText _

/-- The object of a configuration is read as the configuration. -/
theorem ofJson?_toJson (c : Config) : ofJson? c.toJson = some c := by
  -- Every name stands once among the members, so each setting is read from its own.
  change (do
    let visibility ← Visibility.ofJson? c.visibility.toJson
    let retiredCapacity ← (Value.ofNat c.retiredCapacity.toNat).uint64?
    let pageSize ← (Value.ofNat c.pageSize.toNat).uint64?
    let logLevel ← (Value.ofText c.logLevel).text?
    return ({ visibility, retiredCapacity, pageSize, logLevel } : Config)) = _
  rw [Visibility.ofJson?_toJson, Value.uint64?_ofNat, Value.uint64?_ofNat]
  rfl

theorem read_render (c : Config) : read c.toJson.render = .ok c := by
  rw [read, c.proper_toJson.read_render, ofJson?_toJson]

/-- A configuration that is read back is accepted, or refused for the same defect as before. -/
theorem parse_render (c : Config) : parse c.toJson.render = c.validate.map fun _ => c := by
  rw [parse, read_render]
  change (c.validate >>= fun _ => pure c) = _
  cases c.validate <;> rfl

end Config

/-- For all keys, record keys, cursors and configurations, reading the text of one gives it back as
it was. So a key that is read back compares as equal to the one that was written and has its digest,
and from the text of every valid configuration the same configuration is loaded.
-/
theorem stored_forms_read_back
    : (∀ key : Key, ∃ back, (Value.parse? key.toJson.render).bind Key.ofJson? = some back
        ∧ back = key ∧ compare back key = .eq ∧ back.digest = key.digest)
      ∧ (∀ record : RecordKey,
        (Value.parse? record.toJson.render).bind RecordKey.ofJson? = some record)
      ∧ (∀ cursor : Cursor, (Value.parse? cursor.toJson.render).bind Cursor.ofJson? = some cursor)
      ∧ (∀ config : Config, Config.read config.toJson.render = .ok config)
      ∧ ∀ config : Config, config.validate = .ok ()
        → Config.parse config.toJson.render = .ok config := by
  refine ⟨fun key => ?_, fun record => ?_, fun cursor => ?_, Config.read_render,
    fun config valid => ?_⟩
  · refine ⟨key, ?_, rfl, Std.ReflCmp.compare_self, rfl⟩
    rw [key.proper_toJson.read_render, Key.ofJson?_toJson]
  · rw [record.proper_toJson.read_render, RecordKey.ofJson?_toJson]
  · rw [cursor.proper_toJson.read_render, Cursor.ofJson?_toJson]
  · rw [Config.parse_render, valid]
    rfl

/-- A configuration at the limits, with its level in a mixture of cases. -/
def Config.mixedCase : Config :=
  { visibility := .inPlace, retiredCapacity := 1, pageSize := 18446744073709551615,
    logLevel := "WaRn" }

/-- A level is stored as it is spelled. -/
theorem mixedCase_reads_back
    : Config.mixedCase.validate = .ok ()
      ∧ Config.parse Config.mixedCase.toJson.render = .ok Config.mixedCase := by
  have valid : Config.mixedCase.validate = .ok () := by decide
  obtain ⟨_, _, _, _, read⟩ := stored_forms_read_back
  exact ⟨valid, read Config.mixedCase valid⟩

end PagedIndex
