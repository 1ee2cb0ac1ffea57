import Steward.Fault
/-!
Log levels and their names in configurations, which any mix of upper and lower case may spell.
-/
namespace Steward

inductive Level where
  | error
  | warn
  | info
  | debug
  | trace
  deriving DecidableEq, Repr

namespace Level

def rank : Level → Nat
  | .error => 1
  | .warn => 2
  | .info => 3
  | .debug => 4
  | .trace => 5

def name : Level → String
  | .error => "ERROR"
  | .warn => "WARN"
  | .info => "INFO"
  | .debug => "DEBUG"
  | .trace => "TRACE"

/-- The level that a configuration names. No letter outside ASCII occurs in a name, and none
has one of its letters as its lower case. -/
def ofName? (s : String) : Option Level :=
  match String.ofList (s.toList.map Char.toLower) with
  | "trace" => some .trace
  | "debug" => some .debug
  | "info" => some .info
  | "warn" | "warning" => some .warn
  | "error" => some .error
  | _ => none

def read (s : String) : Except Fault Level :=
  match ofName? s with
  | some level => .ok level
  | none => .error (.configuration
      s!"Invalid log level: {s}. Use trace, debug, info, warn, or error" none)

end Level

end Steward
