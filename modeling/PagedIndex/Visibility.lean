import PagedIndex.Json.Typed

/-! Visibility: what a scan sees of writes that happen after it was opened. -/

namespace PagedIndex

inductive Visibility where
  /-- A scan reads the current version group by group and sees writes made between groups. -/
  | inPlace
  /-- A scan reads the version current at its opening; writers copy what is still being read. -/
  | copyOnWrite
  /-- A scan copies the buckets in its range when it is opened. -/
  | copyOnRead
deriving DecidableEq, Repr

namespace Visibility

instance : Inhabited Visibility := ⟨copyOnWrite⟩

def name : Visibility → String
  | inPlace => "in_place"
  | copyOnWrite => "copy_on_write"
  | copyOnRead => "copy_on_read"

def ofName? : String → Option Visibility
  | "in_place" => some inPlace
  | "copy_on_write" => some copyOnWrite
  | "copy_on_read" => some copyOnRead
  | _ => none

/-- A scan never sees later writes. -/
def isSnapshot : Visibility → Bool
  | inPlace => false
  | copyOnWrite | copyOnRead => true

def toJson (v : Visibility) : Json.Value := .ofText v.name

def ofJson? (v : Json.Value) : Option Visibility := v.constant?.bind ofName?

end Visibility

end PagedIndex
