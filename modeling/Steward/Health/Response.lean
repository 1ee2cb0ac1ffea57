import Steward.Cell.Standing
import Steward.Health.Level
import Steward.Logging.Notice
import Steward.Registry.Plan
import Steward.Time.Span
import Steward.Wire.Scalar
/-!
Health reports for operators: one check for each component, and an overall level that is the worst
of all checks that were ever added.
-/
namespace Steward.Health

inductive Details where
  | running (phase : Phase) (lastOutcome : Option Outcome) (disabledMethods : List String)
      (miniServices : Option Nat)
  | skipped (reason : String)
  deriving DecidableEq, Repr

structure Check where
  name : String
  level : Health
  /-- The status of the component; none for one that was left out. -/
  status : Option Status
  error : Option String
  details : Details
  deriving DecidableEq, Repr

namespace Check

/-- The check of a component. The fault of its last pass is told while it refuses calls. -/
def ofSnapshot (s : Snapshot) : Check where
  name := s.name
  level := .ofStatus s.status
  status := some s.status
  error := if s.status.acceptsCalls then none else s.lastReport.bind (·.message)
  details := .running s.phase (s.lastReport.map (·.outcome)) s.disabledMethods s.miniServices

def ofSkipped (s : Registry.Skipped) : Check where
  name := s.name
  level := .degraded
  status := none
  error := none
  details := .skipped s.reason

def notice (c : Check) : Notice :=
  if c.level.isOperational then .healthPassed c.name else .healthFailed c.name c.error

end Check

structure Response where
  level : Health := .up
  /-- One check for each name, the last one that was added. -/
  checks : List Check := []
  responseMillis : Nat := 0
  uptimeSeconds : Nat := 0
  deriving DecidableEq, Repr

namespace Response

def version : String := "0.1.0"

def put (checks : List Check) (c : Check) : List Check :=
  if checks.any fun d => d.name == c.name then
    checks.map fun d => if d.name = c.name then c else d
  else checks ++ [c]

def addCheck (r : Response) (c : Check) : Response :=
  { r with
    level := r.level.worst c.level
    checks := put r.checks c }

def withResponseTime (r : Response) (d : Span) : Response :=
  { r with responseMillis := d.millis % 2 ^ 64 }

def withUptime (r : Response) (d : Span) : Response := { r with uptimeSeconds := d.seconds }

def isHealthy (r : Response) : Bool := r.level.isHealthy

end Response

def Details.toJson : Details → Json
  | .running phase lastOutcome disabledMethods miniServices => .object [
    ("phase", phase.toJson),
    ("last_outcome", .ofOption Outcome.toJson lastOutcome),
    ("disabled_methods", .strings disabledMethods),
    ("mini_services", .ofOption .ofNat miniServices)]
  | .skipped reason => .object [("skipped", .string reason)]

def Check.toJson (c : Check) : Json := .object [
  ("name", .string c.name),
  ("status", c.level.toJson),
  ("component_status", .ofOption Status.toJson c.status),
  ("error", .ofOption .string c.error),
  ("details", c.details.toJson)]

end Steward.Health
