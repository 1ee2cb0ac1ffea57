import Steward.Cell.Operations
import Steward.Config.Loading
import Steward.Fleet.Factory
import Steward.Logging.Filter
/-!
Starting a fleet, adding to it, and shutting it down. Components are made and built in the order of
the plan, so whatever a component needs has had its first build pass before the component is made.
-/
namespace Steward.Fleet

open Steward.Action

variable {K : Kit}

abbrev Registry (K : Kit) := Steward.Registry (Factory K)

def abortExitCode : UInt8 := 70

/-- What is done about a fault: an abort ends the process, if the configuration says so. -/
def onAbort (fault : Fault) : Action K Unit := do
  match fault with
  | .buildAborted _ _ =>
    match ← get (·.config.abortPolicy) with
    | .exit =>
      report (.terminating fault.message)
      exit abortExitCode
    | .propagate => report (.aborted fault.message)
  | _ => return ()

/-- Does what is to be done about a fault and passes the result on. -/
def checkAbort {α : Type} (result : Except Fault α) : Action K (Except Fault α) := do
  match result with
  | .ok _ => return result
  | .error fault =>
    onAbort fault
    return result

def destroyMembers : List String → Action K Unit
  | [] => return ()
  | name :: rest => do
    match ← get fun w => w.roster.member? name with
    | some m => Cell.destroy m.cell
    | none => pure ()
    destroyMembers rest

def shutdown : Action K (List String) := do
  let order ← get fun w => w.roster.order.reverse
  destroyMembers order
  report (.shutDown order.length)
  return order

def join (step : Registry.Step (Factory K)) (product : Product K) (w : World K) : World K :=
  let member : Member := ⟨step.name, w.cells.size, step.dependencies, step.links, step.isManager⟩
  let cell : Cell K :=
    { name := step.name
      inner := .service product.service
      rotates := product.rotates
      attached := true }
  { w.addCell cell with
    roster := { w.roster with
      members := w.roster.members ++ [member]
      order := w.roster.order ++ [step.name] } }

/-- Makes a component. Its name is taken only after it was made, and only if it is still free. -/
def make (step : Registry.Step (Factory K)) : Action K (Except Fault CellId) := do
  let making ← invoke (.factory step.name) fun w => step.factory ⟨step.name, w⟩
  modify fun w => making.notes.foldl World.note w
  match making.product with
  | .error fault => return .error fault
  | .ok product =>
    let (isTaken, cell) ← getModify
      (fun w => ((w.roster.member? step.name).isSome, w.cells.size))
      (fun w => if (w.roster.member? step.name).isSome then w else join step product w)
    if isTaken then return .error (.duplicateComponent step.name) else return .ok cell

def boot (step : Registry.Step (Factory K)) : Action K (Except Fault Report) := do
  match ← make step with
  | .error fault => return .error fault
  | .ok cell =>
    match ← Cell.build cell .boot with
    | .error fault => return .error fault
    | .ok r =>
      modify fun w =>
        { w with roster := { w.roster with bootReports := w.roster.bootReports ++ [r] } }
      return .ok r

def bootAll : List (Registry.Step (Factory K)) → Action K (Except Fault Unit)
  | [] => return .ok ()
  | step :: rest => do
    match ← boot step with
    | .ok _ => bootAll rest
    | .error fault => return .error fault

def planNotices (ctx : Context) (p : Registry.Plan (Factory K)) : List Notice :=
  p.skipped.map (fun s => .pruned s.name s.reason)
    ++ [.planReady p.steps.length p.skipped.length ctx.mode]

def found (config : Config) (p : Registry.Plan (Factory K)) (w : World K) : World K :=
  { w with
    config
    bus := .withCapacity config.events.capacity.toNat
    roster := { skipped := p.skipped, aliases := p.aliases } }

/-- Starts a fleet. If one component cannot be booted, those before it are torn down. -/
def start (registry : Registry K) (config : Config) : Action K (Except Fault Unit) := do
  let ctx := config.context
  let (notes, planned) := registry.plan ctx
  modify fun w => notes.foldl World.note w
  match planned with
  | .error fault => return .error fault
  | .ok p =>
    modify fun w => (planNotices ctx p).foldl World.report w
    modify (found config p)
    report (.starting p.steps.length p.skipped.length ctx.mode)
    let begun ← get (·.now)
    match ← bootAll p.steps with
    | .ok _ =>
      modify fun w => w.report (.started w.roster.members.length (w.now - begun))
      return .ok ()
    | .error fault =>
      onAbort fault
      report (.bootFailed fault.message)
      discard shutdown
      return .error fault

def skipLate (name reason : String) (w : World K) : World K :=
  { w.report (.lateSkipped name reason) with
    roster := { w.roster with skipped := w.roster.skipped ++ [⟨name, reason⟩] } }

inductive Reception (K : Kit) where
  | refused (fault : Fault)
  | skipped (reason : String)
  | welcome (step : Registry.Step (Factory K))

/-- The dependencies of a late component: each must be a member. The first one that is not decides
what becomes of the component. -/
def lateDependencies (r : Roster) (name : String) : List String → Reception K ⊕ List String
  | [] => .inr []
  | d :: ds =>
    let resolved := r.dealias d
    match r.skipped? resolved, r.member? resolved with
    | some s, _ => .inl (.skipped (Registry.dependsOnSkipped s.name))
    | none, none => .inl (.refused (.unresolvedDependency name d))
    | none, some _ =>
      match lateDependencies r name ds with
      | .inr rest => .inr (resolved :: rest)
      | stopped => stopped

def lateLinks (r : Roster) (name : String) : List Link → Except Fault (List Link)
  | [] => .ok []
  | l :: ls =>
    let target := r.dealias l.target
    if (r.member? target).isNone then .error (.unresolvedDependency name target)
    else (lateLinks r name ls).map ({ l with target } :: ·)

/-- Receives a late component, and says which notes its condition leaves. -/
def receive (w : World K) (d : Registry.Descriptor (Factory K)) : List String × Reception K :=
  match d.check with
  | .error fault => ([], .refused fault)
  | .ok _ =>
    let r := w.roster
    let ctx := w.config.context
    let b := d.effective ctx
    if (r.member? d.name).isSome || (r.skipped? d.name).isSome then
      ([], .refused (.duplicateComponent d.name))
    else match b.kind with
      | .abstract _ =>
        ([], .refused (.configuration
          s!"abstract component '{d.name}' cannot be registered after start" none))
      | .concrete factory isManager =>
        match lateDependencies r d.name b.dependencies with
        | .inl reception => ([], reception)
        | .inr dependencies =>
          if !b.condition.holds ctx then (b.condition.notes, .skipped Registry.conditionIsFalse)
          else match lateLinks r d.name b.links with
            | .error fault => (b.condition.notes, .refused fault)
            | .ok links =>
              (b.condition.notes, .welcome ⟨d.name, dependencies, links, isManager, factory⟩)

def register (d : Registry.Descriptor (Factory K)) : Action K (Except Fault Report) := do
  let (notes, reception) ← get fun w => receive w d
  modify fun w => notes.foldl World.note w
  match reception with
  | .refused fault => return .error fault
  | .skipped reason =>
    modify (skipLate d.name reason)
    return .error (.componentSkipped d.name reason)
  | .welcome step =>
    report (.registering d.name)
    checkAbort (← boot step)

def setUpLog (isSetUp : Bool) (described : Option String) (c : Config.Logging) :
    Action K Unit :=
  match Logging.Setup.make isSetUp described c with
  | .ok (_, notice) => report notice
  | .error fault => report (.subscriberKept fault.message)

def bootstrap (registry : Registry K) (sources : Config.Sources) (logIsSetUp : Bool)
    (filter : Option String) : Action K (Except Fault Unit) := do
  let (notices, loaded) := sources.load
  modify fun w => notices.foldl World.report w
  match loaded with
  | .error fault => return .error fault
  | .ok config =>
    setUpLog logIsSetUp filter config.logging
    start registry config

end Steward.Fleet
