import Steward.Fault
import Steward.Registry.Descriptor
/-!
The order in which a rebuild or a teardown spreads over links. From a component the pass first
goes down to the targets of its links, depth first, then does the component itself, and then goes
up to those that have a link onto it. Each component is done once.

A pass is worked out from the links alone, before anything is run. Going down to a component that
is itself waiting for its targets is a cycle; going up to one is not, since it will be done when
its targets are.
-/
namespace Steward.Link

/-- What a pass does to the components that it visits. -/
inductive Operation where
  | build
  | destroy
  deriving DecidableEq, Repr

namespace Operation

def follows (op : Operation) (l : Link) : Bool :=
  match op with
  | .build => l.toBuild
  | .destroy => l.toDestroy

def name : Operation → String
  | .build => "Build"
  | .destroy => "Destroy"

end Operation

structure Topology (ρ : Type) where
  /-- All names that occur. -/
  names : List String
  links : String → List Link
  /-- The components that have a link onto a component, with that link. -/
  followers : String → List (String × Link)
  find : String → Except Fault ρ

structure Visit (ρ : Type) where
  name : String
  found : ρ
  token : Token
  deriving DecidableEq, Repr

structure Route (ρ : Type) where
  visits : List (Visit ρ) := []
  fault : Option Fault := none

structure Progress (ρ : Type) extends Route ρ where
  /-- The components that wait for their targets, the outermost first. -/
  pending : List String := []

namespace Progress

variable {ρ : Type}

def isDone (p : Progress ρ) (name : String) : Bool := p.visits.any fun v => v.name == name

def isPending (p : Progress ρ) (name : String) : Bool := p.pending.contains name

def fail (p : Progress ρ) (fault : Fault) : Progress ρ := { p with fault := some fault }

/-- A component begins to wait for its targets. -/
def enter (p : Progress ρ) (name : String) : Progress ρ :=
  { p with pending := p.pending ++ [name] }

/-- The component that began to wait last is done. -/
def finish (p : Progress ρ) (visit : Visit ρ) : Progress ρ :=
  { p with
    visits := p.visits ++ [visit]
    pending := p.pending.dropLast }

def forEach {α : Type} (go : Progress ρ → α → Progress ρ) (p : Progress ρ) (as : List α) :
    Progress ρ :=
  as.foldl (fun p a => if p.fault.isSome then p else go p a) p

end Progress

variable {ρ : Type}

/-- Visits a component, and from there its targets and its followers. Each level of nesting has a
component of its own that is pending or done, so there are no more levels than names. -/
def visit (t : Topology ρ) (op : Operation) :
    (depth : Nat) → (asFollower : Bool) → Progress ρ → String × Token → Progress ρ
  | 0, _, p, _ => p
  | depth + 1, asFollower, p, (name, token) =>
    if p.isDone name then p
    else if p.isPending name then
      if asFollower then p else p.fail (.linkCycle (p.pending ++ [name]))
    else
      let targets := (t.links name).filter op.follows |>.map fun l => (l.target, l.token)
      let p := (p.enter name).forEach (visit t op depth false) targets
      if p.fault.isSome then p
      else match t.find name with
        | .error fault => p.fail fault
        | .ok found =>
          let followers := (t.followers name).filter (fun f => op.follows f.2)
            |>.map fun f => (f.1, f.2.token)
          (p.finish ⟨name, found, token⟩).forEach (visit t op depth true) followers

/-- The route of a pass that begins with a component and a token for it. -/
def route (t : Topology ρ) (op : Operation) (start : String) (token : Token) : Route ρ :=
  (visit t op (t.names.length + 2) false {} (start, token)).toRoute

end Steward.Link
