import Steward.Fault
import Steward.Registry.Descriptor
import Steward.Registry.Order
/-!
Planning: which components a fleet has under given circumstances, and in which order they are
made. A plan replaces abstract names by the components that stand in for them, puts every
component after its dependencies and the targets of its links, and leaves out what its condition
or a left-out dependency forbids. Nothing is made while planning.
-/
namespace Steward.Registry

variable {F : Type}

structure Step (F : Type) where
  name : String
  /-- Names of steps, abstract names replaced. -/
  dependencies : List String
  links : List Link
  isManager : Bool
  factory : F

structure Skipped where
  name : String
  reason : String
  deriving DecidableEq, Repr

/-- What being left out amounts to. -/
def Skipped.outcome (_ : Skipped) : Outcome := .skip

structure Plan (F : Type) where
  steps : List (Step F)
  skipped : List Skipped
  /-- The components that abstract names stand for. -/
  aliases : List (String × String)

namespace Plan

def order (p : Plan F) : List String := p.steps.map (·.name)

def position? (p : Plan F) (name : String) : Option Nat :=
  p.order.findIdx? (· == name)

end Plan

/-- What a name stands for. -/
def dealias (aliases : List (String × String)) (name : String) : String :=
  (aliases.lookup name).getD name

/-- A concrete component with its references replaced, before anything is left out. -/
structure Node (F : Type) extends Step F where
  condition : Condition

/-- What must stand before a node. -/
def Node.prerequisites (n : Node F) : List String :=
  n.dependencies ++ n.links.map (·.target)

def concrete? (blueprints : List (Blueprint F)) (name : String) : Option (Blueprint F) :=
  blueprints.find? fun b => b.name == name && !b.isAbstract

/-- What an abstract name stands for: a concrete component that says it implements the name. -/
def resolve (blueprints : List (Blueprint F)) (ctx : Context) (name : String)
    (resolver : Question String) : Except Fault (String × String) :=
  let target := resolver.answer ctx
  match concrete? blueprints target with
  | none => .error (.abstractResolution name s!"resolved to unknown component '{target}'")
  | some b =>
    if b.implements.contains name then .ok (name, target)
    else .error (.abstractResolution name s!"'{target}' does not implement it")

/-- What the abstract names of a list stand for, up to the first one that fails. The notes of
all resolvers that were asked come with it. -/
def resolveAll (blueprints : List (Blueprint F)) (ctx : Context) :
    List (Blueprint F) → List String × Except Fault (List (String × String))
  | [] => ([], .ok [])
  | b :: bs =>
    match b.kind with
    | .concrete _ _ => resolveAll blueprints ctx bs
    | .abstract resolver =>
      match resolve blueprints ctx b.name resolver with
      | .error fault => ([resolver.note], .error fault)
      | .ok pair =>
        let (notes, rest) := resolveAll blueprints ctx bs
        (resolver.note :: notes, rest.map (pair :: ·))

def refer (blueprints : List (Blueprint F)) (aliases : List (String × String))
    (owner target : String) : Except Fault String :=
  let resolved := dealias aliases target
  if (concrete? blueprints resolved).isNone then .error (.unresolvedDependency owner target)
  else if resolved = owner then .error (.selfReference owner)
  else .ok resolved

def distinct (names : List String) : List String :=
  names.foldl (fun kept n => if kept.contains n then kept else kept ++ [n]) []

/-- A blueprint with its references replaced; none for an abstract name. -/
def node? (blueprints : List (Blueprint F)) (aliases : List (String × String))
    (b : Blueprint F) : Except Fault (Option (Node F)) :=
  match b.kind with
  | .abstract _ => .ok none
  | .concrete factory isManager => do
    let dependencies ← b.dependencies.mapM (refer blueprints aliases b.name)
    let links ← b.links.mapM fun l => do
      return { l with target := ← refer blueprints aliases b.name l.target }
    return some ⟨⟨b.name, distinct dependencies, links, isManager, factory⟩, b.condition⟩

def nodes (blueprints : List (Blueprint F)) (aliases : List (String × String)) :
    Except Fault (List (Node F)) := do
  return (← blueprints.mapM (node? blueprints aliases)).filterMap id

/-- The reason of a component whose own condition forbids it. -/
def conditionIsFalse : String := "build condition is false"

def dependsOnSkipped (dependency : String) : String :=
  s!"depends on skipped component '{dependency}'"

def skipReason? (ctx : Context) (skipped : List Skipped) (n : Node F) : Option String :=
  if !n.condition.holds ctx then some conditionIsFalse
  else (n.dependencies.find? fun d => skipped.any fun s => s.name == d).map dependsOnSkipped

def prune (ctx : Context) (ordered : List (Node F)) : List Skipped :=
  ordered.foldl (fun skipped n =>
    match skipReason? ctx skipped n with
    | some reason => skipped ++ [⟨n.name, reason⟩]
    | none => skipped) []

/-- The step of a node that stays, without the links onto nodes that do not. -/
def Node.step (skipped : List Skipped) (n : Node F) : Step F :=
  { n.toStep with links := n.links.filter fun l => !skipped.any fun s => s.name == l.target }

def planOf (ctx : Context) (aliases : List (String × String)) (ordered : List (Node F)) :
    Plan F :=
  let skipped := prune ctx ordered
  let kept := ordered.filter fun n => !skipped.any fun s => s.name == n.name
  ⟨kept.map (Node.step skipped), skipped, aliases⟩

/-- The blueprints that count under given circumstances. -/
def blueprints (r : Registry F) (ctx : Context) : List (Blueprint F) :=
  r.descriptors.map (·.effective ctx)

def ordered (blueprints : List (Blueprint F)) (aliases : List (String × String)) :
    Except Fault (List (Node F) × List (Node F)) := do
  let ns ← nodes blueprints aliases
  match Order.sorted (·.name) Node.prerequisites ns with
  | .ok order => return (ns, order)
  | .error cycle => throw (.circularDependency cycle)

/-- The plan of a registry, and the notes of all questions that were asked: those of resolvers in
any case, those of conditions only if nothing else is wrong. -/
def plan (r : Registry F) (ctx : Context) : List String × Except Fault (Plan F) :=
  let bs := r.blueprints ctx
  match resolveAll bs ctx bs with
  | (notes, .error fault) => (notes, .error fault)
  | (notes, .ok aliases) =>
    match ordered bs aliases with
    | .error fault => (notes, .error fault)
    | .ok (ns, order) =>
      (notes ++ ns.flatMap fun n => n.condition.notes, .ok (planOf ctx aliases order))

end Steward.Registry
