import Steward.Change
import Steward.Logging.Level
import Steward.Build
import Steward.Text.Quoted
/-!
The lines that a fleet writes to its log. Each is a value that says what happened; its level, its
message and its fields follow from it.
-/
namespace Steward

inductive Field where
  | text (value : String)
  | number (value : Nat)
  | flag (value : Bool)
  deriving DecidableEq, Repr

inductive Notice where
  /-- A descriptor was accepted. -/
  | registered (component : String)
  /-- A component was left out of a plan. -/
  | pruned (component reason : String)
  | planReady (components skipped : Nat) (mode : String)
  | starting (components skipped : Nat) (mode : String)
  | bootFailed (error : String)
  | started (components : Nat) (elapsedMillis : Nat)
  /-- A pass aborted and the process ends. -/
  | terminating (error : String)
  /-- A pass aborted and its caller is told. -/
  | aborted (error : String)
  | shutDown (components : Nat)
  | registering (component : String)
  /-- A component that comes late was left out. -/
  | lateSkipped (component reason : String)
  | applying (change : Change)
  /-- A pass goes on to a component; `operation` is the name of what it does. -/
  | propagating (component operation : String) (token : Token)
  | alreadyDestroyed (component : String)
  | destroyFailed (component error : String)
  | destroyPanicked (component panic : String)
  | destroyed (component : String)
  | statusAssigned (component : String) (previous status : Status)
  | built (report : Report) (notImplemented : Bool)
  | rotationSkipped (component : String) (store : Status)
  | rotated (component : String) (attempts : Nat)
  | rotationRetrying (component : String) (attempts retryInMillis : Nat) (error : String)
  | rotationExhausted (component : String) (attempts : Nat) (error : String)
  | rotationFailed (component : String) (attempts : Nat) (error : String)
  | rotationScheduled (component : String) (periodSeconds : Nat)
  | rotationStopped (component : String)
  /-- A mini-service whose name is taken was not pooled. -/
  | miniRefused (manager id error : String)
  | miniUnusable (manager id : String) (status : Status)
  | miniAborted (manager id error : String)
  | configLoaded (path : String)
  | configMissing (path : String)
  | healthPassed (component : String)
  | healthFailed (component : String) (details : Option String)
  /-- An event had no listener. -/
  | eventDropped
  /-- Logging was set up before. -/
  | subscriberKept (error : String)
  | loggingReady (level : Level)
  deriving DecidableEq, Repr

namespace Notice

def level : Notice → Level
  | .registered _ | .pruned _ _ | .planReady _ _ _ | .propagating _ _ _ | .alreadyDestroyed _
  | .rotationScheduled _ _ | .rotationStopped _ | .miniUnusable _ _ _ | .healthPassed _
  | .subscriberKept _ => .debug
  | .starting _ _ _ | .started _ _ | .shutDown _ | .registering _ | .applying _ | .destroyed _
  | .statusAssigned _ _ _ | .rotated _ _ | .configLoaded _ | .loggingReady _ => .info
  | .lateSkipped _ _ | .destroyFailed _ _ | .rotationSkipped _ _ | .rotationRetrying _ _ _ _
  | .miniRefused _ _ _ | .miniAborted _ _ _ | .configMissing _ => .warn
  | .bootFailed _ | .terminating _ | .aborted _ | .destroyPanicked _ _
  | .rotationExhausted _ _ _ | .rotationFailed _ _ _ | .healthFailed _ _ => .error
  | .eventDropped => .trace
  | .built report notImplemented =>
    if notImplemented then .warn
    else match report.outcome with
      | .ok => .info
      | .warning | .skip => .warn
      | .failure | .abort => .error

def message : Notice → String
  | .registered _ => "Component registered"
  | .pruned _ _ => "Component pruned from plan"
  | .planReady _ _ _ => "Build plan ready"
  | .starting _ _ _ => "Starting runtime"
  | .bootFailed _ => "Boot failed, shutting down booted components"
  | .started _ _ => "Runtime started"
  | .terminating _ => "Build aborted, terminating process"
  | .aborted _ => "Build aborted"
  | .shutDown _ => "Runtime shut down"
  | .registering _ => "Registering component after start"
  | .lateSkipped _ _ => "Late registration skipped"
  | .applying _ => "Applying state change"
  | .propagating _ _ _ => "Propagating lifecycle operation"
  | .alreadyDestroyed _ => "Component already destroyed"
  | .destroyFailed _ _ => "Destroy hook failed, continuing"
  | .destroyPanicked _ _ => "Destroy hook panicked, continuing"
  | .destroyed _ => "Component destroyed"
  | .statusAssigned _ _ _ => "Status assigned"
  | .built report notImplemented =>
    if notImplemented then "Build not implemented"
    else match report.outcome with
      | .ok => "Component built"
      | .warning | .skip => "Component built in degraded state"
      | .failure => "Component build failed"
      | .abort => "Component build aborted"
  | .rotationSkipped _ _ => "Secret store not available, rotation skipped"
  | .rotated _ _ => "Credential rotated"
  | .rotationRetrying _ _ _ _ => "Transient authentication failure, retrying rotation"
  | .rotationExhausted _ _ _ => "Rotation retries exhausted, keeping current credential"
  | .rotationFailed _ _ _ => "Rotation failed"
  | .rotationScheduled _ _ => "Next rotation scheduled"
  | .rotationStopped _ => "Rotation timer stopped"
  | .miniRefused _ _ _ => "Mini-service omitted"
  | .miniUnusable _ _ _ => "Mini-service not usable, omitted"
  | .miniAborted _ _ _ => "Mini-service aborted, omitted"
  | .configLoaded path => "Configuration loaded from " ++ path
  | .configMissing path => "Configuration file not found: " ++ path
  | .healthPassed _ => "Health check passed"
  | .healthFailed _ _ => "Health check failed"
  | .eventDropped => "Lifecycle event dropped, no subscribers"
  | .subscriberKept _ => "Keeping the existing tracing subscriber"
  | .loggingReady level => "Logging initialized with level: " ++ level.name

def reportFields (r : Report) (notImplemented : Bool) : List (String × Field) :=
  let first := [("component", Field.text r.component), ("token", .text r.token.name)]
  let status := ("status", Field.text r.status.name)
  if notImplemented then first ++ [status]
  else
    let detail := match r.outcome with
      | .ok => ("elapsed_ms", Field.number r.elapsedMillis)
      | _ => ("detail", .text (r.message.getD ""))
    first ++ [("outcome", .text r.outcome.name), status, detail]

def fields : Notice → List (String × Field)
  | .registered c | .alreadyDestroyed c | .destroyed c | .registering c | .rotationStopped c
  | .healthPassed c => [("component", .text c)]
  | .pruned c reason | .lateSkipped c reason => [("component", .text c), ("reason", .text reason)]
  | .planReady components skipped mode | .starting components skipped mode =>
    [("components", .number components), ("skipped", .number skipped), ("mode", .text mode)]
  | .bootFailed error | .terminating error | .aborted error | .subscriberKept error =>
    [("error", .text error)]
  | .started components elapsed =>
    [("components", .number components), ("elapsed_ms", .number elapsed)]
  | .shutDown components => [("components", .number components)]
  | .applying change =>
    [("component", .text change.component), ("mini_service", .text (Text.shownOption change.id)),
      ("status", .text change.status.name), ("to_destroy", .flag change.toDestroy),
      ("to_build", .flag change.toBuild)]
  | .propagating c operation token =>
    [("component", .text c), ("op", .text operation), ("token", .text token.name)]
  | .destroyFailed c error => [("component", .text c), ("error", .text error)]
  | .destroyPanicked c panic => [("component", .text c), ("panic", .text panic)]
  | .statusAssigned c previous status =>
    [("component", .text c), ("previous", .text previous.name), ("status", .text status.name)]
  | .built report notImplemented => reportFields report notImplemented
  | .rotationSkipped c store => [("component", .text c), ("upstream", .text store.name)]
  | .rotated c attempts => [("component", .text c), ("attempts", .number attempts)]
  | .rotationRetrying c attempts millis error =>
    [("component", .text c), ("attempts", .number attempts), ("retry_in_ms", .number millis),
      ("error", .text error)]
  | .rotationExhausted c attempts error | .rotationFailed c attempts error =>
    [("component", .text c), ("attempts", .number attempts), ("error", .text error)]
  | .rotationScheduled c seconds => [("component", .text c), ("period_secs", .number seconds)]
  | .miniRefused manager id error | .miniAborted manager id error =>
    [("manager", .text manager), ("id", .text id), ("error", .text error)]
  | .miniUnusable manager id status =>
    [("manager", .text manager), ("id", .text id), ("status", .text status.name)]
  | .healthFailed c details =>
    [("component", .text c), ("details", .text (details.getD "Unknown failure"))]
  | .configLoaded _ | .configMissing _ | .eventDropped | .loggingReady _ => []

end Notice

end Steward
