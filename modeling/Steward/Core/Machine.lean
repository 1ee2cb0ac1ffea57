import Steward.Rotation.Tick
/-!
Running tasks on one thread in virtual time. Resting costs nothing: the clock stands still while
any task can go on, and then jumps to the next moment at which one of them wakes.

Two kinds of tasks take turns. The tasks of the foreground, which a run waits for, go on in their
order; the timers of rotating components follow, one after the other in the order in which they
were woken, until none can go on.
-/
namespace Steward

open Steward.Action

variable {K : Kit} {α : Type}

inductive Stage (K : Kit) (α : Type) where
  | ready (rest : Action K α)
  /-- It waits in the line of a lock. -/
  | waiting (next : Unit → Action K α)
  /-- It rests; of tasks that wake at one moment the one with the lower number wakes first. -/
  | resting (wakesAt number : Nat) (next : Unit → Action K α)
  /-- It rests as long as its timer is not cancelled. -/
  | idling (wakesAt number : Nat) (next : Bool → Action K α)
  | finished (result : α)
  | exited (code : UInt8)

namespace Stage

def isReady : Stage K α → Bool
  | .ready _ => true
  | _ => false

def result? : Stage K α → Option α
  | .finished a => some a
  | _ => none

def alarm? : Stage K α → Option (Nat × Nat)
  | .resting wakesAt number _ | .idling wakesAt number _ => some (wakesAt, number)
  | _ => none

def wake : Stage K α → Stage K α
  | .resting _ _ next => .ready (next ())
  | .idling _ _ next => .ready (next false)
  | s => s

def cancel : Stage K α → Stage K α
  | .idling _ _ next => .ready (next true)
  | s => s

def proceed : Stage K α → Stage K α
  | .waiting next => .ready (next ())
  | s => s

end Stage

inductive Signal where
  | granted (task : TaskId)
  | cancelled (task : TaskId)
  | launched (task : TaskId) (cell : CellId)
  deriving DecidableEq, Repr

structure Moment (K : Kit) where
  world : World K
  signals : List Signal := []
  alarms : Nat

namespace Moment

/-- Changes the world, and signals which timers were cancelled and launched by that. -/
def update (m : Moment K) (f : World K → World K) : Moment K :=
  let w := f m.world
  { m with
    world := w
    signals := m.signals
      ++ (w.cancelled.drop m.world.cancelled.length).map .cancelled
      ++ (w.launched.drop m.world.launched.length).map fun (task, cell) =>
        .launched task cell }

def release (m : Moment K) (task : TaskId) (cell : CellId) : Moment K :=
  match m.world.cell? cell with
  | none => m
  | some c =>
    let (lock, admitted) := c.lock.release task
    { m with
      world := m.world.modifyCell cell fun c => { c with lock }
      signals := m.signals ++ admitted.map .granted }

def acquire (m : Moment K) (task : TaskId) (cell : CellId) (access : Access) :
    Moment K × Bool :=
  match m.world.cell? cell with
  | none => (m, true)
  | some c =>
    ({ m with world := m.world.modifyCell cell fun c =>
        { c with lock := c.lock.request task access } }, c.lock.meets access)

end Moment

def segment (task : TaskId) : Action K α → Moment K → Moment K × Stage K α
  | .done a, m => (m, .finished a)
  | .call (.update f) next, m => segment task (next m.world) (m.update f)
  | .call (.invoke _) next, m => segment task (next m.world) m
  | .call (.acquire cell access) next, m =>
    match m.acquire task cell access with
    | (m, true) => segment task (next ()) m
    | (m, false) => (m, .waiting next)
  | .call (.release cell) next, m => segment task (next ()) (m.release task cell)
  | .call (.rest millis) next, m =>
    if millis = 0 then segment task (next ()) m
    else ({ m with alarms := m.alarms + 1 }, .resting (m.world.now + millis) m.alarms next)
  | .call (.restUnlessCancelled millis) next, m =>
    if m.world.cancelled.contains task then segment task (next true) m
    else if millis = 0 then segment task (next false) m
    else ({ m with alarms := m.alarms + 1 }, .idling (m.world.now + millis) m.alarms next)
  | .call (.exit code) _, m => (m, .exited code)

structure Task (K : Kit) (α : Type) where
  id : TaskId
  stage : Stage K α

structure Timer (K : Kit) where
  id : TaskId
  cell : CellId
  stage : Stage K Bool

structure Running (K : Kit) where
  world : World K
  timers : List (Timer K) := []
  /-- The timers that can go on. -/
  queue : List TaskId := []
  alarms : Nat := 0

structure Machine (K : Kit) (α : Type) extends Running K where
  tasks : List (Task K α)
  /-- Whether the timers have their turn. -/
  timersTurn : Bool := false
  exited : Option UInt8 := none

namespace Machine

def rouse (m : Machine K α) (id : TaskId) (f : Stage K Bool → Stage K Bool) : Machine K α :=
  match m.timers.find? fun t => t.id == id with
  | none => m
  | some t =>
    if !t.stage.isReady && (f t.stage).isReady then
      { m with
        timers := m.timers.map fun t => if t.id = id then { t with stage := f t.stage } else t
        queue := m.queue ++ [id] }
    else m

def signal (m : Machine K α) : Signal → Machine K α
  | .granted id =>
    { m.rouse id .proceed with
      tasks := m.tasks.map fun t =>
        if t.id = id then { t with stage := t.stage.proceed } else t }
  | .cancelled id => m.rouse id .cancel
  | .launched id cell =>
    { m with
      timers := m.timers ++ [⟨id, cell, .ready (Rotation.round cell)⟩]
      queue := m.queue ++ [id] }

def absorb (m : Machine K α) (moment : Moment K) : Machine K α :=
  moment.signals.foldl signal { m with world := moment.world, alarms := moment.alarms }

def moment (m : Machine K α) : Moment K := { world := m.world, alarms := m.alarms }

def advanceTask (m : Machine K α) (index : Nat) : Machine K α :=
  match m.exited, m.tasks[index]? with
  | none, some ⟨id, .ready rest⟩ =>
    let (moment, stage) := segment id rest m.moment
    let exited := match stage with
      | .exited code => some code
      | _ => none
    { m with tasks := m.tasks.set index ⟨id, stage⟩, exited }.absorb moment
  | _, _ => m

def advanceTasks (m : Machine K α) : Machine K α :=
  (List.range m.tasks.length).foldl advanceTask { m with timersTurn := true }

/-- Lets the first timer of the queue go on. One whose round is over begins the next round at
once, or is gone. -/
def advanceTimer (m : Machine K α) (id : TaskId) (queue : List TaskId) : Machine K α :=
  match m.timers.find? fun t => t.id == id with
  | some ⟨_, cell, .ready rest⟩ =>
    let (moment, stage) := segment id rest m.moment
    let put (stage : Stage K Bool) : List (Timer K) :=
      m.timers.map fun t => if t.id = id then { t with stage } else t
    match stage with
    | .finished true =>
      { m with timers := put (.ready (Rotation.round cell)), queue := id :: queue }.absorb moment
    | .finished false =>
      { m with timers := m.timers.filter fun t => t.id != id, queue }.absorb moment
    | stage => { m with timers := put stage, queue }.absorb moment
  | _ => { m with queue }

def alarmTimes (m : Machine K α) : List (Nat × Nat) :=
  m.tasks.filterMap (·.stage.alarm?) ++ m.timers.filterMap (·.stage.alarm?)

def nextAlarm? (m : Machine K α) : Option Nat := (m.alarmTimes.map (·.1)).min?

/-- The clock jumps, and all alarms of that moment go off, timers in the order of the alarms. -/
def jump (m : Machine K α) (now : Nat) : Machine K α :=
  let isDue {β : Type} (stage : Stage K β) : Bool := (stage.alarm?.map (·.1)) == some now
  let due := m.timers.filter fun t => isDue t.stage
  let inOrder := due.mergeSort fun s t =>
    (s.stage.alarm?.map (·.2)).getD 0 ≤ (t.stage.alarm?.map (·.2)).getD 0
  { m with
    world := { m.world with now }
    tasks := m.tasks.map fun t => if isDue t.stage then { t with stage := t.stage.wake } else t
    timers := m.timers.map fun t => if isDue t.stage then { t with stage := t.stage.wake } else t
    queue := m.queue ++ inOrder.map (·.id)
    timersTurn := false }

def isOver (m : Machine K α) : Bool :=
  m.exited.isSome || m.tasks.all fun t => t.stage.result?.isSome

def canGoOn (m : Machine K α) : Bool := m.tasks.any fun t => t.stage.isReady

/-- Goes on for so many turns at most, until the run is over or no task can ever go on. -/
def run : (turns : Nat) → Machine K α → Machine K α
  | 0, m => m
  | turns + 1, m =>
    if m.isOver then m
    else if m.canGoOn && !m.timersTurn then run turns m.advanceTasks
    else match m.queue with
      | id :: queue => run turns (m.advanceTimer id queue)
      | [] =>
        if m.canGoOn then run turns { m with timersTurn := false }
        else match m.nextAlarm? with
          | some now => run turns (m.jump now)
          | none => m

end Machine

inductive Finished (α : Type) where
  | all (results : List α)
  | exited (code : UInt8)
  /-- Some task waits for ever. -/
  | stuck

namespace Running

def start (r : Running K) (actions : List (Action K α)) : Machine K α :=
  let first := r.world.nextTask
  { r with
    world := { r.world with nextTask := first + actions.length }
    tasks := actions.mapIdx fun i action => ⟨first + i, .ready action⟩ }

def turnLimit : Nat := 2 ^ 50

def runAll (r : Running K) (actions : List (Action K α)) : Running K × Finished α :=
  let m := (r.start actions).run turnLimit
  (m.toRunning,
    match m.exited with
    | some code => .exited code
    | none =>
      match m.tasks.mapM (·.stage.result?) with
      | some results => .all results
      | none => .stuck)

def run (r : Running K) (action : Action K α) : Running K × Finished α := r.runAll [action]

end Running

end Steward
