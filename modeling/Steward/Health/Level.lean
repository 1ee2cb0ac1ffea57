import Steward.Status
/-!
The health of a component or of a whole fleet, coarser than a status: a component is down when it
refuses calls, up when it is fully available, and degraded in between.
-/
namespace Steward

inductive Health where
  | up
  | degraded
  | down
  deriving DecidableEq, Repr

namespace Health

def isHealthy : Health → Bool
  | .up => true
  | _ => false

def isOperational : Health → Bool
  | .up | .degraded => true
  | .down => false

def name : Health → String
  | .up => "up"
  | .degraded => "degraded"
  | .down => "down"

def ofName? (s : String) : Option Health := [up, degraded, down].find? fun h => h.name == s

def ofStatus : Status → Health
  | .available => .up
  | .degraded | .partiallyAvailable => .degraded
  | .unavailable | .temporarilyUnavailable => .down

def worst : Health → Health → Health
  | .down, _ | _, .down => .down
  | .degraded, _ | _, .degraded => .degraded
  | .up, .up => .up

theorem isOperational_ofStatus (s : Status) : (ofStatus s).isOperational = s.acceptsCalls := by
  cases s <;> rfl

theorem worst_comm (a b : Health) : a.worst b = b.worst a := by
  cases a <;> cases b <;> rfl

end Health

end Steward
