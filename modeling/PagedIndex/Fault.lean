import PagedIndex.Log.Severity

/-! The ways a request or a configuration is refused, with their stable codes and messages. -/

namespace PagedIndex

/-- A refusal: what kind it is and what it was about. -/
inductive Fault where
  | invalidArgument (reason : String)
  | unknownCursor (record : String)
  | malformedCursor (reason : String)
  | invalidConfig (reason : String)
deriving DecidableEq, Repr

namespace Fault

/-- A cursor does not go with a range that is open at both ends. -/
def cursorOnOpenRange : Fault :=
  .invalidArgument "cursor is not supported when both range bounds are exclusive"

/-- A page has room for at least one entry. -/
def zeroPageLimit : Fault := .invalidArgument "page limit must be greater than zero"

/-- The code that programs tell faults apart by. -/
def code : Fault → String
  | invalidArgument _ => "AERO_INDEX_INVALID_ARGUMENT"
  | unknownCursor _ => "AERO_INDEX_UNKNOWN_CURSOR"
  | malformedCursor _ => "AERO_INDEX_MALFORMED_CURSOR"
  | invalidConfig _ => "AERO_INDEX_CONFIG_INVALID"

def message : Fault → String
  | invalidArgument reason => "Invalid argument: " ++ reason
  | unknownCursor record =>
    "Unknown cursor: no live or retired entry for record key " ++ record
  | malformedCursor reason => "Malformed cursor: " ++ reason
  | invalidConfig reason => "Invalid configuration: " ++ reason

/-- A store cannot be built from a bad configuration; every other fault spares the store. -/
def severity : Fault → Log.Severity
  | invalidConfig _ => .fatal
  | _ => .error

def isFatal (fault : Fault) : Bool := fault.severity == .fatal

end Fault

end PagedIndex
