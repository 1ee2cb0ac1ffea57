/-!
Why the gate of a component turns a call away, and everything that can go wrong in a fleet of
components, as causes. Only `Refusal.message` and `Fault.message` word them.
-/
namespace Steward

inductive Refusal where
  | notBuilt (component : String)
  | destroyed (component : String)
  | unavailable (component : String)
  | temporarilyUnavailable (component : String)
  | methodDisabled (component method : String)
  deriving DecidableEq, Repr

namespace Refusal

/-- The component that refused. -/
def component : Refusal → String
  | .notBuilt c | .destroyed c | .unavailable c | .temporarilyUnavailable c => c
  | .methodDisabled c _ => c

def isRetryable : Refusal → Bool
  | .temporarilyUnavailable _ => true
  | _ => false

def message : Refusal → String
  | .notBuilt c => s!"component '{c}' is not built"
  | .destroyed c => s!"component '{c}' is destroyed"
  | .unavailable c => s!"component '{c}' is unavailable"
  | .temporarilyUnavailable c => s!"component '{c}' is temporarily unavailable"
  | .methodDisabled c m => s!"method '{m}' of component '{c}' is disabled"

end Refusal

/-- How a JSON text fails to be read: it breaks the grammar, it ends too early, or it is good
JSON of the wrong shape. -/
inductive JsonFlaw where
  | malformed
  | truncated
  | mismatched
  deriving DecidableEq, Repr

/-- What went wrong. A `cause` is the text of a foreign error that a fault was made from. -/
inductive Fault where
  | device (cause : String)
  | deviceAt (message : String) (cause : Option String)
  | json (flaw : JsonFlaw)
  | configuration (message : String) (cause : Option String)
  | duplicateComponent (name : String)
  | selfReference (name : String)
  | circularDependency (cycle : List String)
  | unresolvedDependency (component dependency : String)
  | abstractResolution (name message : String)
  | componentNotFound (name : String)
  | componentSkipped (name reason : String)
  | typeMismatch (name expected : String)
  | buildAborted (component reason : String)
  | linkCycle (path : List String)
  | gate (refusal : Refusal)
  | miniServiceNotFound (manager id : String)
  | miniServiceAlreadyExists (manager id : String)
  | notAManager (name : String)
  | infrastructure (message : String) (cause : Option String)
  | internal (message : String)
  deriving DecidableEq, Repr

def JsonFlaw.message : JsonFlaw → String
  | .malformed => "malformed text"
  | .truncated => "unexpected end of text"
  | .mismatched => "unexpected shape"

namespace Fault

def arrows (path : List String) : String := " -> ".intercalate path

def message : Fault → String
  | .device cause => s!"I/O error: {cause}"
  | .deviceAt m _ => s!"I/O error: {m}"
  | .json flaw => "JSON parsing error: " ++ flaw.message
  | .configuration m _ => s!"Configuration error: {m}"
  | .duplicateComponent n => s!"Component '{n}' is registered twice"
  | .selfReference n => s!"Component '{n}' references itself"
  | .circularDependency cycle => "Circular dependency: " ++ arrows cycle
  | .unresolvedDependency c d => s!"Component '{c}' depends on unknown component '{d}'"
  | .abstractResolution n m => s!"Cannot resolve abstract component '{n}': {m}"
  | .componentNotFound n => s!"Component not found: {n}"
  | .componentSkipped n r => s!"Component '{n}' was skipped at plan time: {r}"
  | .typeMismatch n e => s!"Component '{n}' is not a {e}"
  | .buildAborted c r => s!"Build of '{c}' aborted: {r}"
  | .linkCycle path => "Link cycle detected: " ++ arrows path
  | .gate refusal => refusal.message
  | .miniServiceNotFound m i => s!"Mini-service '{i}' does not exist in '{m}'"
  | .miniServiceAlreadyExists m i => s!"Mini-service '{i}' already exists in '{m}'"
  | .notAManager n => s!"Component '{n}' does not manage mini-services"
  | .infrastructure m _ => s!"Infrastructure error: {m}"
  | .internal m => s!"Internal error: {m}"

def cause? : Fault → Option String
  | .device cause => some cause
  | .deviceAt _ cause | .configuration _ cause | .infrastructure _ cause => cause
  | .json flaw => some flaw.message
  | _ => none

def isFatal : Fault → Bool
  | .circularDependency _ | .unresolvedDependency _ _ | .duplicateComponent _
  | .selfReference _ | .abstractResolution _ _ | .buildAborted _ _ | .configuration _ _ => true
  | _ => false

def infrastructureAt (context cause : String) : Fault :=
  .infrastructure s!"{context}: {cause}" (some cause)

def deviceFailing (context cause : String) : Fault :=
  .deviceAt s!"{context}: {cause}" (some cause)

def configurationAt (context cause : String) : Fault :=
  .configuration s!"{context}: {cause}" (some cause)

end Fault

end Steward
