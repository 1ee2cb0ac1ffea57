import Steward.Fleet.Boot
import Steward.Health.Response
import Steward.Link.Propagation
/-!
Working with a running fleet: rebuilding and tearing down components together with those that are
linked to them, carrying out the state changes that other processes ask for, looking, and checking
the health of each member and of each component left out.
-/
namespace Steward.Fleet

open Steward.Action

variable {K : Kit}

def status (name : String) : Action K (Except Fault Status) := do
  match ← get fun w => w.roster.find name with
  | .ok cell => return .ok (← Cell.status cell)
  | .error fault => return .error fault

def snapshot (name : String) : Action K (Except Fault Snapshot) := do
  match ← get fun w => w.roster.find name with
  | .ok cell => return .ok (← Cell.look cell)
  | .error fault => return .error fault

def snapshotsOf : List String → Action K (List Snapshot)
  | [] => return []
  | name :: rest => do
    match ← snapshot name with
    | .ok s => return s :: (← snapshotsOf rest)
    | .error _ => snapshotsOf rest

def snapshots : Action K (List Snapshot) := do snapshotsOf (← get (·.roster.order))

def spreadFrom (op : Link.Operation) (name : String) (token : Token) :
    Action K (Except Fault Link.Propagation) := do
  let roster ← get (·.roster)
  let resolved := roster.dealias name
  match roster.find resolved with
  | .error fault => return .error fault
  | .ok _ => Link.spread roster.topology op resolved token

def rebuild (name : String) (token : Token) : Action K (Except Fault Link.Propagation) := do
  checkAbort (← spreadFrom .build name token)

/-- Tears a component down, and those that its links tie it to. -/
def destroy (name : String) : Action K (Except Fault Link.Propagation) :=
  spreadFrom .destroy name .admin

def target (change : Change) : Action K (Except Fault CellId) := do
  match ← get fun w => w.roster.find change.component, change.id with
  | .error fault, _ => return .error fault
  | .ok cell, none => return .ok cell
  | .ok cell, some id =>
    let (name, isManager) ← get fun w =>
      let name := ((w.cell? cell).map (·.name)).getD ""
      (name, (w.roster.member? name).any (·.isManager))
    if !isManager then return .error (.notAManager name)
    else
      match ← reading cell fun c => (c.bind Cell.pooled).bind (·.lookup id) with
      | some mini => return .ok mini
      | none => return .error (.miniServiceNotFound name id)

/-- Carries a state change out. The report is that of the build, if one was asked for. -/
def apply (change : Change) : Action K (Except Fault (Option Report)) := do
  match ← target change with
  | .error fault => return .error fault
  | .ok cell =>
    report (.applying change)
    Cell.setStatus cell change.status
    if change.toDestroy then Cell.destroy cell
    if change.toBuild then
      return (← checkAbort (← Cell.build cell change.token)).map some
    else return .ok none

def checks (snapshots : List Snapshot) (skipped : List Registry.Skipped) : List Health.Check :=
  snapshots.map .ofSnapshot ++ skipped.map .ofSkipped

def addChecks (checks : List Health.Check) : Action K Health.Response := do
  modify fun w => (checks.map (·.notice)).foldl World.report w
  return checks.foldl .addCheck {}

def health : Action K Health.Response := do
  let members ← snapshots
  addChecks (checks members (← get (·.roster.skippedByName)))

end Steward.Fleet
