import Steward.Bus
import Steward.Cell.Standing
import Steward.Config.Basic
import Steward.Core.Hook
import Steward.Core.Lock
import Steward.Registry.Plan
/-!
Everything that tasks share: the cells of components, the event bus, the roster of a fleet, the
journal and the log. Time is counted in milliseconds from the start of a run.
-/
namespace Steward

inductive Inner (K : Kit) where
  | service (service : K.Service)
  | mini (mini : K.Mini)

/-- A component with its lock, where it stands, and its rotation timer. -/
structure Cell (K : Kit) where
  name : String
  inner : Inner K
  standing : Standing := {}
  lock : Lock := .free
  /-- Whether a timer is armed after every usable build pass. -/
  rotates : Bool := false
  /-- The task of the timer that was armed last and not cancelled by its cell. -/
  timer : Option TaskId := none
  /-- Whether events go to the bus. -/
  attached : Bool := false

namespace Cell

variable {K : Kit}

def typeName (c : Cell K) : String :=
  match c.inner with
  | .service s => K.service.typeName s
  | .mini m => K.mini.typeName m

def pooled (c : Cell K) : Option (List (String × CellId)) :=
  match c.inner with
  | .service s => K.pooled s
  | .mini _ => none

def isMini (c : Cell K) : Bool :=
  match c.inner with
  | .service _ => false
  | .mini _ => true

def snapshot (c : Cell K) : Snapshot :=
  .of c.name c.standing (c.pooled.map List.length)

end Cell

structure Member where
  name : String
  cell : CellId
  dependencies : List String
  links : List Link
  isManager : Bool
  deriving DecidableEq, Repr

structure Roster where
  /-- Names are distinct. -/
  members : List Member := []
  /-- The names of members in the order of their first build pass. -/
  order : List String := []
  /-- Components that were left out; names are distinct. -/
  skipped : List Registry.Skipped := []
  /-- The components that abstract names stand for. -/
  aliases : List (String × String) := []
  /-- The reports of the first build passes. -/
  bootReports : List Report := []

namespace Roster

def member? (r : Roster) (name : String) : Option Member :=
  r.members.find? fun m => m.name == name

def skipped? (r : Roster) (name : String) : Option Registry.Skipped :=
  r.skipped.find? fun s => s.name == name

def dealias (r : Roster) (name : String) : String := Registry.dealias r.aliases name

end Roster

structure World (K : Kit) where
  /-- Milliseconds since the start. -/
  now : Nat := 0
  /-- The wall clock, which stands still during a run. -/
  wall : Instant := default
  /-- What chance decides about the periods of a policy. -/
  chance : Rotation.Policy → Rotation.Roll := Rotation.Policy.luckiest
  config : Config := {}
  cells : Array (Cell K) := #[]
  bus : Bus := default
  roster : Roster := {}
  /-- What hooks, factories and questions have noted. -/
  journal : Array String := #[]
  notices : Array Notice := #[]
  nextTask : TaskId := 0
  /-- The tasks of all timers that were ever armed, with their cells. -/
  launched : List (TaskId × CellId) := []
  /-- The tasks of all timers that were ever cancelled. -/
  cancelled : List TaskId := []

namespace World

variable {K : Kit}

def cell? (w : World K) (id : CellId) : Option (Cell K) := w.cells[id]?

/-- Whether a cell was created for a mini-service. -/
def holdsMini (w : World K) (id : CellId) : Bool := (w.cell? id).any (·.isMini)

def modifyCell (w : World K) (id : CellId) (f : Cell K → Cell K) : World K :=
  { w with cells := w.cells.modify id f }

def addCell (w : World K) (c : Cell K) : World K := { w with cells := w.cells.push c }

def note (w : World K) (line : String) : World K := { w with journal := w.journal.push line }

def report (w : World K) (notice : Notice) : World K :=
  { w with notices := w.notices.push notice }

def publish (w : World K) (id : CellId) (e : Event) : World K :=
  match w.cell? id with
  | some c =>
    if c.attached then
      if w.bus.isHeard then { w with bus := w.bus.send e } else w.report .eventDropped
    else w
  | none => w

def cancelTimer (w : World K) (id : CellId) : World K :=
  match (w.cell? id).bind (·.timer) with
  | some task =>
    { w.modifyCell id fun c => { c with timer := none } with
      cancelled := w.cancelled ++ [task] }
  | none => w

def armTimer (w : World K) (id : CellId) : World K :=
  let w := w.cancelTimer id
  { w.modifyCell id fun c => { c with timer := some w.nextTask } with
    nextTask := w.nextTask + 1
    launched := w.launched ++ [(w.nextTask, id)] }

end World

end Steward
