/-! Severities of log lines, from tracing detail up to unrecoverable failures. -/

namespace PagedIndex.Log

inductive Severity where
  | trace
  | info
  | warn
  | error
  | fatal
deriving DecidableEq, Repr

namespace Severity

/-- The place of a severity in rising order. -/
def rank : Severity → Nat
  | trace => 0
  | info => 1
  | warn => 2
  | error => 3
  | fatal => 4

instance : Ord Severity := ⟨fun a b => compare a.rank b.rank⟩

def name : Severity → String
  | trace => "TRACE"
  | info => "INFO"
  | warn => "WARN"
  | error => "ERROR"
  | fatal => "FATAL"

/-- Every severity, in rising order. -/
def all : List Severity := [trace, info, warn, error, fatal]

/-- The severity with the given name. Only the case of ASCII letters is ignored. -/
def ofName? (s : String) : Option Severity :=
  let upper := s.toList.map Char.toUpper
  all.find? fun severity => severity.name.toList == upper

end Severity

end PagedIndex.Log
