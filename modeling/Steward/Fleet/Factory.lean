import Steward.Core.World
import Steward.Link.Pass
/-!
Finding the components of a running fleet, by their names or by abstract names, and making them: a
factory gets a resolver, through which it sees the fleet as it is at that moment, and gives a
component or a fault.
-/
namespace Steward

namespace Roster

def find (r : Roster) (name : String) : Except Fault CellId :=
  let resolved := r.dealias name
  match r.member? resolved, r.skipped? resolved with
  | some m, _ => .ok m.cell
  | none, some s => .error (.componentSkipped resolved s.reason)
  | none, none => .error (.componentNotFound name)

def dependenciesOf (r : Roster) (name : String) : Except Fault (List String) :=
  match r.member? (r.dealias name) with
  | some m => .ok m.dependencies
  | none => .error (.componentNotFound name)

def managers (r : Roster) : List String :=
  r.order.filter fun name => (r.member? name).any (·.isManager)

def skippedByName (r : Roster) : List Registry.Skipped :=
  r.skipped.mergeSort fun s t => s.name ≤ t.name

/-- The links between members. Of several links that one member has onto another, going up to the
member considers the first one only. -/
def topology (r : Roster) : Link.Topology CellId where
  names := r.order
  links name := ((r.member? name).map (·.links)).getD []
  followers name := r.order.filterMap fun candidate => do
    let m ← r.member? candidate
    let l ← m.links.find? fun l => l.target == name
    return (candidate, l)
  find := r.find

end Roster

namespace World

variable {K : Kit}

def findTyped (w : World K) (name typeName : String) : Except Fault CellId := do
  let id ← w.roster.find name
  if (w.cell? id).any fun c => c.typeName == typeName then return id
  else throw (.typeMismatch (w.roster.dealias name) typeName)

end World

structure Resolver (K : Kit) where
  name : String
  world : World K

namespace Resolver

variable {K : Kit}

def component (r : Resolver K) (name : String) : Except Fault CellId := r.world.roster.find name

def typed (r : Resolver K) (name typeName : String) : Except Fault CellId :=
  r.world.findTyped name typeName

def config (r : Resolver K) : Config := r.world.config

def context (r : Resolver K) : Context := r.world.config.context

end Resolver

structure Product (K : Kit) where
  service : K.Service
  /-- Whether its credential is rotated by a timer. -/
  rotates : Bool := false

structure Making (K : Kit) where
  notes : List String := []
  product : Except Fault (Product K)

abbrev Factory (K : Kit) := Resolver K → Making K

end Steward
