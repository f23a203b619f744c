import PagedIndex.Log.Event
import PagedIndex.Text.Hex

/-! Log lines: one JSON object a line, with the event, the severity and then named fields in the
order of their names.
-/

namespace PagedIndex.Log

/-- A named field of a log line. -/
abbrev Field := String × String

/-- The control characters of Unicode. -/
def isControl (c : Char) : Bool := c.toNat < 32 || (127 ≤ c.toNat && c.toNat < 160)

/-- A character as it stands in a string of a log line. Every control character is escaped. -/
def escapeChar (c : Char) : List Char :=
  if c = '"' then ['\\', '"']
  else if c = '\\' then ['\\', '\\']
  else if c = '\n' then ['\\', 'n']
  else if c = '\r' then ['\\', 'r']
  else if c = '\t' then ['\\', 't']
  else if isControl c then '\\' :: 'u' :: Hex.digits 4 c.toNat
  else [c]

/-- A string in its quotes. -/
def quote (s : String) : List Char := '"' :: s.toList.flatMap escapeChar ++ ['"']

/-- A named string as it stands in an object. -/
def member (field : Field) : List Char := quote field.1 ++ ':' :: quote field.2

/-- Fields in the order of their names by code point; those of one name keep their order. -/
def sortFields (fields : List Field) : List Field :=
  fields.mergeSort fun a b => (compare a.1 b.1).isLE

/-- The members of a log line: event and severity first, then the sorted fields. -/
def members (severity : Severity) (event : String) (fields : List Field) : List Field :=
  ("event", event) :: ("severity", severity.name) :: sortFields fields

/-- The text of a log line, without the newline that ends it. -/
def lineChars (severity : Severity) (event : String) (fields : List Field) : List Char :=
  '\x7b' :: ([','].intercalate ((members severity event fields).map member)) ++ ['\x7d']

def line (severity : Severity) (event : String) (fields : List Field) : String :=
  String.ofList (lineChars severity event fields)

/-- A log line with the newline that ends it. -/
def render (severity : Severity) (event : String) (fields : List Field) : String :=
  String.ofList (lineChars severity event fields ++ ['\n'])

/-- A log that leaves out events below a severity. -/
structure Logger where
  minimum : Severity
deriving DecidableEq, Repr

namespace Logger

instance : Inhabited Logger := ⟨⟨.info⟩⟩

/-- Events of a severity are written. -/
def enabled (logger : Logger) (severity : Severity) : Bool :=
  (compare severity logger.minimum).isGE

/-- The lines that an event adds to the log: one or none. -/
def lines (logger : Logger) (event : Event) (fields : List Field) : List String :=
  if logger.enabled event.severity then [line event.severity event.name fields] else []

end Logger

end PagedIndex.Log
