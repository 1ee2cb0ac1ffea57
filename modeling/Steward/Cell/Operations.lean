import Steward.Core.Action
/-!
The operations on one component: build, destroy, assign a status, call, look. Each holds the lock
of the cell while it is at work; building, destroying and assigning hold it for writing.

What an operation tells to the log and to the event bus is told before the lock is given up, so
no other task sees a state that was not yet told. A timer is armed right after.
-/
namespace Steward.Cell

open Steward.Action

variable {K : Kit}

def status (id : CellId) : Action K Status :=
  reading id fun c => (c.map (·.standing.status)).getD default

def look (id : CellId) : Action K Snapshot :=
  reading id fun c => (c.map snapshot).getD (.of "" {} none)

def statusNow? (w : World K) (id : CellId) : Option Status :=
  (w.cell? id).bind fun c => if c.lock.meets .read then some c.standing.status else none

def inner? (id : CellId) : Action K (Option (Inner K)) :=
  get fun w => (w.cell? id).map (·.inner)

def putBack (id : CellId) (inner : Inner K) : Action K Unit :=
  modify (·.modifyCell id fun c => { c with inner })

def carry : (call : Hook.Call) → Action K call.Answer
  | .note line => Action.note line
  | .rest millis => Action.rest millis
  | .statusOf cell => status cell
  | .clock => get (·.wall)

def passMini (id : CellId) (scope : Scope) : Action K (Scope × Ending) := do
  match ← inner? id with
  | some (.mini m) =>
    invoke (.buildMini id scope.token) fun _ => ()
    let (m, scope, ending) ← (K.mini.pass m scope).interpret carry
    putBack id (.mini m)
    return (scope, ending)
  | _ => return (scope, .ok)

/-- What ends a pass: the component stands where its report says, and all are told, also which
status the pass has found. -/
def endBuild (id : CellId) (scope : Scope) (ending : Ending) (report : Report) (previous : Status)
    (w : World K) : World K :=
  match w.cell? id with
  | none => w
  | some c =>
    let w := w.modifyCell id fun c =>
      { c with standing := c.standing.endBuild report scope.disabled }
    let w := w.report (.built report ending.isNotImplemented)
    w.publish id (.built c.name scope.token report.outcome previous report.status)

def armAfter (id : CellId) (report : Report) (w : World K) : World K :=
  match w.cell? id with
  | some c => if report.outcome.isUsable && c.rotates then w.armTimer id else w
  | none => w

/-- One build pass, with given hooks. An abort is a fault; every other outcome is a report. Hooks
may ask for what they like, but whose pass it is and why it runs is not theirs to say. -/
def buildWith (pass : CellId → Scope → Action K (Scope × Ending)) (id : CellId) (token : Token) :
    Action K (Except Fault Report) := do
  let started ← get (·.now)
  acquire id .write
  let previous ← get fun w => ((w.cell? id).map (·.standing.status)).getD default
  let name ← getModify (fun w => ((w.cell? id).map (·.name)).getD "")
    (·.modifyCell id fun c => { c with standing := c.standing.beginBuild })
  let (asked, ending) ← pass id { component := name, token }
  let scope := { asked with component := name, token }
  let report ← get fun w => scope.report ending (w.now - started) w.wall
  modify (endBuild id scope ending report previous)
  release id
  modify (armAfter id report)
  if report.outcome.isFatal then
    return .error (.buildAborted name (report.message.getD ""))
  else return .ok report

def buildMini (id : CellId) (token : Token) : Action K (Except Fault Report) :=
  buildWith passMini id token

def tearMini (id : CellId) : Action K Ending := do
  match ← inner? id with
  | some (.mini m) =>
    invoke (.destroyMini id) fun _ => ()
    let (m, ending) ← (K.mini.destroy m).interpret carry
    putBack id (.mini m)
    return ending
  | _ => return .ok

def tearNotice? (name : String) : Ending → Option Notice
  | .ok => none
  | .failed fault => some (.destroyFailed name fault.message)
  | .panicked payload => some (.destroyPanicked name (Ending.payloadText payload))

def endDestroy (id : CellId) (ending : Ending) (w : World K) : World K :=
  match w.cell? id with
  | none => w
  | some c =>
    let w := w.modifyCell id fun c => { c with standing := c.standing.endDestroy }
    let w := match tearNotice? c.name ending with
      | some notice => w.report notice
      | none => w
    (w.report (.destroyed c.name)).publish id (.destroyed c.name)

/-- Tears a component down, with given hooks, whatever they do. A second time does nothing. -/
def destroyWith (tear : CellId → Action K Ending) (id : CellId) : Action K Unit := do
  modify (·.cancelTimer id)
  acquire id .write
  match ← get fun w => w.cell? id with
  | some c =>
    if c.standing.destroyed then Action.report (.alreadyDestroyed c.name)
    else
      modify (·.modifyCell id fun c => { c with standing := c.standing.beginDestroy })
      let ending ← tear id
      modify (endDestroy id ending)
  | none => return ()
  release id

def destroyMini (id : CellId) : Action K Unit := destroyWith tearMini id

/-- Carries out what a hook of a component asks for. Only mini-services are built and destroyed by
hooks. -/
def carryPool : (call : PoolHook.Call K.Mini) → Action K call.Answer
  | .plain call => carry call
  | .report notice => Action.report notice
  | .enroll name mini => getModify (·.cells.size) (·.addCell { name, inner := .mini mini })
  | .build cell token => do
    if ← get (·.holdsMini cell) then buildMini cell token
    else return .error (.internal "no mini-service")
  | .destroy cell => do if ← get (·.holdsMini cell) then destroyMini cell

def pass (id : CellId) (scope : Scope) : Action K (Scope × Ending) := do
  match ← inner? id with
  | some (.service s) =>
    invoke (.build id scope.token) fun _ => ()
    let (s, scope, ending) ← (K.service.pass s scope).interpret carryPool
    putBack id (.service s)
    return (scope, ending)
  | _ => passMini id scope

def build (id : CellId) (token : Token) : Action K (Except Fault Report) :=
  buildWith pass id token

def tear (id : CellId) : Action K Ending := do
  match ← inner? id with
  | some (.service s) =>
    invoke (.destroy id) fun _ => ()
    let (s, ending) ← (K.service.destroy s).interpret carryPool
    putBack id (.service s)
    return ending
  | _ => tearMini id

def destroy (id : CellId) : Action K Unit := destroyWith tear id

def assign (id : CellId) (status : Status) (w : World K) : World K :=
  match w.cell? id with
  | none => w
  | some c =>
    let previous := c.standing.status
    let w := w.modifyCell id fun c => { c with standing := c.standing.assign status }
    let w := if previous = status then w
      else w.report (.statusAssigned c.name previous status)
    w.publish id (.statusChanged c.name previous status)

def setStatus (id : CellId) (status : Status) : Action K Unit := do
  acquire id .write
  modify (assign id status)
  release id

/-- Enters a call of a method. If it is admitted, the lock stays held for the whole call. -/
def enter (id : CellId) (method : String) : Action K (Except Refusal (Cell K)) := do
  acquire id .read
  match ← get fun w => w.cell? id with
  | none =>
    release id
    return .error (.notBuilt "")
  | some c =>
    match c.standing.gate c.name method with
    | .ok _ => return .ok c
    | .error refusal =>
      release id
      return .error refusal

/-- A call of a method that looks at the component and does nothing else. -/
def call {α : Type} (id : CellId) (method : String) (f : Cell K → α) :
    Action K (Except Refusal α) := do
  match ← enter id method with
  | .ok c =>
    release id
    return .ok (f c)
  | .error refusal => return .error refusal

/-- A call that also needs a fresh credential. -/
def freshCall {α : Type} (id : CellId) (method : String) (f : Cell K → Credential → α) :
    Action K (Except Refusal α) := do
  match ← enter id method with
  | .error refusal => return .error refusal
  | .ok c =>
    let now ← get (·.wall)
    release id
    match c.inner with
    | .service s => return (K.slot s |>.fresh now).map (f c)
    | .mini _ => return .error (.temporarilyUnavailable c.name)

end Steward.Cell
