import Steward.Cell.Operations
import Steward.Link.Pass
/-!
Running a pass: the visits of a route are carried out one after the other. The first build that
aborts ends the pass.
-/
namespace Steward.Link

variable {K : Kit}

structure Propagation where
  visited : List String := []
  /-- The reports of the builds, in order. -/
  reports : List Report := []
  deriving DecidableEq, Repr

def Visit.run (op : Operation) (v : Visit CellId) : Action K (Except Fault (List Report)) := do
  Action.report (.propagating v.name op.name v.token)
  match op with
  | .build => return (← Cell.build v.found v.token).map fun report => [report]
  | .destroy =>
    Cell.destroy v.found
    return .ok []

def runVisits (op : Operation) :
    List (Visit CellId) → Propagation → Action K (Except Fault Propagation)
  | [], p => return .ok p
  | v :: vs, p => do
    match ← v.run op with
    | .ok reports => runVisits op vs ⟨p.visited ++ [v.name], p.reports ++ reports⟩
    | .error fault => return .error fault

def Route.run (op : Operation) (r : Route CellId) : Action K (Except Fault Propagation) := do
  match ← runVisits op r.visits {}, r.fault with
  | .ok p, none => return .ok p
  | .ok _, some fault => return .error fault
  | .error fault, _ => return .error fault

def spread (t : Topology CellId) (op : Operation) (start : String) (token : Token) :
    Action K (Except Fault Propagation) := (route t op start token).run op

end Steward.Link
