import Steward.Fleet.Conduct
import Steward.Rehearsal.Kit
import Steward.Wire.Event
import Steward.Wire.Report
/-!
The records of a rehearsal: JSON forms of what a fleet answers, without clock readings, so that two
runs of one rehearsal have the same record.
-/
namespace Steward.Rehearsal

def reportJson (r : Report) : Json := .object [
  ("component", .string r.component),
  ("token", r.token.toJson),
  ("outcome", r.outcome.toJson),
  ("status", r.status.toJson),
  ("message", .ofOption .string r.message),
  ("usable", .bool r.isUsable)]

def snapshotJson (s : Snapshot) : Json := .object [
  ("name", .string s.name),
  ("status", s.status.toJson),
  ("phase", s.phase.toJson),
  ("built", .bool s.built),
  ("destroyed", .bool s.destroyed),
  ("disabled_methods", .strings s.disabledMethods),
  ("last_report", .ofOption reportJson s.lastReport),
  ("mini_services", .ofOption .ofNat s.miniServices)]

def linkJson (l : Link) : Json := .object [
  ("target", .string l.target),
  ("to_build", .bool l.toBuild),
  ("to_destroy", .bool l.toDestroy),
  ("token", l.token.toJson)]

def propagationJson (p : Link.Propagation) : Json := .object [
  ("visited", .strings p.visited),
  ("reports", .array (p.reports.map reportJson))]

def counterJson (c : Mini.Counter) : Json := .object [
  ("expected", .ofNat c.expected),
  ("built", .ofNat c.built),
  ("omitted", .ofNat c.omitted),
  ("counts", .object (Status.worstFirst.map fun s => (s.name, .ofNat (c.count s)))),
  ("status", c.status.toJson)]

def fieldJson : Field → Json
  | .text s => .string s
  | .number n => .ofNat n
  | .flag b => .bool b

def backlogJson (b : Bus.Backlog) : Json :=
  .array ((if b.lost = 0 then [] else [.object [("lagged", .ofNat b.lost)]])
    ++ b.events.map Event.toJson)

def healthJson (r : Health.Response) : Json := .object [
  ("status", r.level.toJson),
  ("healthy", .bool r.isHealthy),
  ("version", .string Health.Response.version),
  ("checks", .object (r.checks.map fun c => (c.name, c.toJson)))]

def skippedJson (s : Registry.Skipped) : Json := .object [
  ("name", .string s.name),
  ("outcome", s.outcome.toJson),
  ("reason", .string s.reason)]

def planJson (find : Option String) (p : Registry.Plan (Factory kit)) : Json := .object [
  ("order", .strings p.order),
  ("len", .ofNat p.steps.length),
  ("empty", .bool p.steps.isEmpty),
  ("steps", .array (p.steps.map fun s => .object [
    ("name", .string s.name),
    ("dependencies", .strings s.dependencies),
    ("links", .array (s.links.map linkJson)),
    ("manager", .bool s.isManager)])),
  ("skipped", .array (p.skipped.map skippedJson)),
  ("aliases", .object (p.aliases.map fun (name, target) => (name, .string target))),
  ("position", .ofOption .ofNat (find.bind p.position?))]

def credentialJson (now : Instant) (s : Slot) : Json := .object [
  ("rotations", .ofNat s.rotations),
  ("ttl", s.ttl.toJson),
  ("fresh", .bool (s.isFreshAt now)),
  ("current", .ofOption (fun c => .object [
    ("username", .string c.username),
    ("lease_id", .string c.leaseId),
    ("lease_duration_secs", .ofNat c.leaseSeconds.toNat)]) s.current)]

def gateValue (c : Cell kit) : Json :=
  match c.inner with
  | .mini _ => .bool true
  | .service (.probe p) => .ofNat p.builds
  | .service (.unfinished _) => .ofNat 0
  | .service (.manager m) => .strings m.store.ids
  | .service (.tenant t) => .ofNat t.slot.rotations

def managerOf (c : Option (Cell kit)) : Option Manager := do
  match (← c).inner with
  | .service (.manager m) => some m
  | _ => none

def tenantOf (c : Option (Cell kit)) : Option Tenant := do
  match (← c).inner with
  | .service (.tenant t) => some t
  | _ => none

def entryJson (w : World kit) (e : Mini.Entry Entity) : Json := .object [
  ("id", .string e.id),
  ("entity", e.entity.card),
  ("cell", .string (((w.cell? e.cell).map (·.name)).getD ""))]

def refusalKind : Refusal → String
  | .notBuilt _ => "NotBuilt"
  | .destroyed _ => "Destroyed"
  | .unavailable _ => "Unavailable"
  | .temporarilyUnavailable _ => "TemporarilyUnavailable"
  | .methodDisabled _ _ => "MethodDisabled"

def faultKind : Fault → String
  | .device _ => "IoSimple"
  | .deviceAt _ _ => "Io"
  | .json _ => "Json"
  | .configuration _ _ => "Configuration"
  | .duplicateComponent _ => "DuplicateComponent"
  | .selfReference _ => "SelfReference"
  | .circularDependency _ => "CircularDependency"
  | .unresolvedDependency _ _ => "UnresolvedDependency"
  | .abstractResolution _ _ => "AbstractResolution"
  | .componentNotFound _ => "ComponentNotFound"
  | .componentSkipped _ _ => "ComponentSkipped"
  | .typeMismatch _ _ => "TypeMismatch"
  | .buildAborted _ _ => "BuildAborted"
  | .linkCycle _ => "LinkCycle"
  | .gate _ => "Gate"
  | .miniServiceNotFound _ _ => "MiniServiceNotFound"
  | .miniServiceAlreadyExists _ _ => "MiniServiceAlreadyExists"
  | .notAManager _ => "NotAManager"
  | .infrastructure _ _ => "Infrastructure"
  | .internal _ => "Internal"

end Steward.Rehearsal
