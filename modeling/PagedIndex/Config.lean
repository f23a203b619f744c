import PagedIndex.Fault
import PagedIndex.Json.Reader
import PagedIndex.Json.Writer
import PagedIndex.Log.Line
import PagedIndex.Visibility

/-! Configurations of an index: their JSON form, the values a store can run with, and loading one
from a file. Every setting has a default, so the empty object is a configuration.

Reading a configuration checks the text first and then the settings in a fixed order, so of several
defects the first one in that order is reported.
-/

namespace PagedIndex

open Json

/-- The settings of an index. -/
structure Config where
  /-- What scans see of later writes. -/
  visibility : Visibility := default
  /-- How many removed entries are remembered for cursors. -/
  retiredCapacity : UInt64 := 4096
  /-- The page size when a reader names none. -/
  pageSize : UInt64 := 1000
  /-- The least severity that is logged, by its name. -/
  logLevel : String := "info"
deriving DecidableEq, Repr

namespace Config

/-- The value of a field, or its default when the field is missing. -/
def fieldOr (missing : α) (read : Value → Option α) : Option Value → Option α
  | none => some missing
  | some v => read v

/-- The configuration with the given fields. -/
def ofFields? (visibility retiredCapacity pageSize logLevel : Option Value) : Option Config := do
  let missing : Config := {}
  return {
    visibility := ← fieldOr missing.visibility Visibility.ofJson? visibility
    retiredCapacity := ← fieldOr missing.retiredCapacity Value.uint64? retiredCapacity
    pageSize := ← fieldOr missing.pageSize Value.uint64? pageSize
    logLevel := ← fieldOr missing.logLevel Value.text? logLevel }

/-- The value of a named member, `none` if the name is repeated. -/
def member? (members : List (Option String × Value)) (name : String) : Option (Option Value) :=
  match members.filter (·.1 == some name) with
  | [] => some none
  | [(_, v)] => some (some v)
  | _ => none

/-- The configuration in a JSON value: an object in which other members are ignored, or an array
of the fields in order.
-/
def ofJson? : Value → Option Config
  | .object members => do
    guard (members.all (·.1.isSome))
    ofFields? (← member? members "visibility") (← member? members "retired_cursor_capacity")
      (← member? members "default_page_size") (← member? members "log_level")
  | .array items => do
    guard (items.length ≤ 4)
    ofFields? items[0]? items[1]? items[2]? items[3]?
  | _ => none

def toJson (c : Config) : Value :=
  .ofMembers [
    ("visibility", c.visibility.toJson),
    ("retired_cursor_capacity", .ofNat c.retiredCapacity.toNat),
    ("default_page_size", .ofNat c.pageSize.toNat),
    ("log_level", .ofText c.logLevel)]

/-! ## Defects -/

/-- Why the file of a configuration cannot be read. -/
inductive ReadFailure where
  | missing
  | directory
  | notUtf8
deriving DecidableEq, Repr

def ReadFailure.message : ReadFailure → String
  | missing => "No such file or directory (os error 2)"
  | directory => "Is a directory (os error 21)"
  | notUtf8 => "stream did not contain valid UTF-8"

/-- Why a configuration is refused. -/
inductive Defect where
  | unreadable (path : String) (failure : ReadFailure)
  | malformed
  | zeroPageSize
  | zeroRetiredCapacity
  | unknownLogLevel (name : String)
deriving DecidableEq, Repr

namespace Defect

def message : Defect → String
  | unreadable path failure => "failed to read " ++ path ++ ": " ++ failure.message
  | malformed => "invalid JSON"
  | zeroPageSize => "default_page_size must be greater than zero"
  | zeroRetiredCapacity => "retired_cursor_capacity must be greater than zero"
  | unknownLogLevel name => "unknown log_level '" ++ name ++ "'"

/-- The fault that a defect is reported as. -/
def fault (defect : Defect) : Fault := .invalidConfig defect.message

end Defect

/-! ## Validation and loading -/

/-- The severity that the log level names. -/
def severity (c : Config) : Except Defect Log.Severity :=
  match Log.Severity.ofName? c.logLevel with
  | some severity => .ok severity
  | none => .error (.unknownLogLevel c.logLevel)

/-- The log at the configured level. -/
def logger (c : Config) : Except Defect Log.Logger := c.severity.map Log.Logger.mk

/-- Refuses settings that a store cannot run with. -/
def validate (c : Config) : Except Defect Unit :=
  if c.pageSize = 0 then .error .zeroPageSize
  else if c.retiredCapacity = 0 then .error .zeroRetiredCapacity
  else c.severity.map fun _ => ()

/-- Reads a configuration from JSON text, valid or not. -/
def read (text : String) : Except Defect Config :=
  match (Value.parse? text).bind ofJson? with
  | some config => .ok config
  | none => .error .malformed

/-- Reads a valid configuration from JSON text. -/
def parse (text : String) : Except Defect Config := do
  let config ← read text
  config.validate
  return config

/-- What a file system gives for a path. -/
inductive File where
  | missing
  | directory
  | content (bytes : List UInt8)
deriving DecidableEq, Repr

/-- The text of a file. -/
def File.text : File → Except ReadFailure String
  | missing => .error .missing
  | directory => .error .directory
  | content bytes =>
    match String.fromUTF8? ⟨bytes.toArray⟩ with
    | some text => .ok text
    | none => .error .notUtf8

/-- Reads a valid configuration from the file at a path, with the log lines this writes. -/
def load (path : String) (file : File) : Except Defect (Config × List String) := do
  let text ← file.text.mapError (.unreadable path)
  let config ← parse text
  let logger ← config.logger
  let lines := logger.lines .configLoaded [("path", path), ("visibility", config.visibility.name)]
  return (config, lines)

end Config

end PagedIndex
