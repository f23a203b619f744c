import PagedIndex.Cursor
import PagedIndex.Json.Typed

/-! Record keys and cursors in JSON: the array of their bytes. -/

namespace PagedIndex

open Json

def RecordKey.toJson (key : RecordKey) : Value := .ofBytes key.bytes

def RecordKey.ofJson? (v : Value) : Option RecordKey := v.bytes?.map RecordKey.mk

def Cursor.toJson (cursor : Cursor) : Value := cursor.record.toJson

def Cursor.ofJson? (v : Value) : Option Cursor := (RecordKey.ofJson? v).map Cursor.mk

end PagedIndex
