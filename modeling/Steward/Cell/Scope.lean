import Steward.Build
/-!
What the hooks of one build pass may say, and how the pass ends.
-/
namespace Steward

structure Scope where
  component : String
  token : Token
  /-- Methods that the pass is going to leave closed; each stands here once. -/
  disabled : List String := []
  /-- The status that the hooks wish to end with. -/
  wish : Option Status := none
  deriving DecidableEq, Repr

namespace Scope

def disable (s : Scope) (method : String) : Scope :=
  if s.disabled.contains method then s else { s with disabled := s.disabled ++ [method] }

def enable (s : Scope) (method : String) : Scope :=
  { s with disabled := s.disabled.filter (· != method) }

def isDisabled (s : Scope) (method : String) : Bool := s.disabled.contains method

def override (s : Scope) (status : Status) : Scope := { s with wish := some status }

end Scope

inductive Ending where
  | ok
  | failed (fault : BuildFault)
  /-- The hook panicked, with a text or with something else. -/
  | panicked (payload : Option String)
  deriving DecidableEq, Repr

namespace Ending

def payloadText (payload : Option String) : String := payload.getD "unknown panic payload"

/-- A panic aborts the pass. -/
def outcome : Ending → Outcome
  | .ok => .ok
  | .failed fault => fault.outcome
  | .panicked _ => .abort

def message? : Ending → Option String
  | .ok => none
  | .failed fault => some fault.message
  | .panicked payload => some ("panic during build: " ++ payloadText payload)

def isNotImplemented : Ending → Bool
  | .failed .notImplemented => true
  | _ => false

end Ending

def Scope.report (s : Scope) (ending : Ending) (elapsedMillis : Nat) (finishedAt : Instant) :
    Report where
  component := s.component
  token := s.token
  outcome := ending.outcome
  status := ending.outcome.statusWith s.wish
  message := ending.message?
  elapsedMillis := elapsedMillis
  finishedAt := finishedAt

end Steward
