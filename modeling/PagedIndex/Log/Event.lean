import PagedIndex.Log.Severity

/-! The events an index reports in its log. -/

namespace PagedIndex.Log

inductive Event where
  | indexCreated
  | indexCleared
  | configLoaded
  /-- A scan was refused before anything was read. -/
  | scanRejected
  /-- A cursor named a removed entry and the scan went on after its last position. -/
  | cursorStaleResume
  /-- A cursor named a record without a known position. -/
  | cursorUnknown
deriving DecidableEq, Repr

namespace Event

def name : Event → String
  | indexCreated => "INDEX_CREATED"
  | indexCleared => "INDEX_CLEARED"
  | configLoaded => "CONFIG_LOADED"
  | scanRejected => "SCAN_REJECTED"
  | cursorStaleResume => "CURSOR_STALE_RESUME"
  | cursorUnknown => "CURSOR_UNKNOWN"

/-- The severity an event is logged at: refusals are warnings. -/
def severity : Event → Severity
  | scanRejected | cursorUnknown => .warn
  | _ => .info

end Event

end PagedIndex.Log
