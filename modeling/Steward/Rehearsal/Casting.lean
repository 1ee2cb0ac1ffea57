import Steward.Fleet.Factory
import Steward.Rehearsal.Kit
/-!
How rehearsed components come into a fleet: their factories look up what they need by name, and
conditions and abstract names are decided by the mode and the flags.
-/
namespace Steward.Rehearsal

inductive Role where
  | probe (probe : Probe) (needs : List String) (watch : List (String × String))
  | unfinished
  | manager (manager : Manager)
  | tenant (tenant : Tenant) (secretStore : Option String)

structure Casting where
  label : String
  role : Role
  /-- Whether the factory notes what it sees of the fleet. -/
  peeks : Bool := false
  /-- The fault of a factory that fails. -/
  fault : Option String := none

namespace Casting

def alone (c : Casting) : Service :=
  match c.role with
  | .probe p _ _ => .probe p
  | .unfinished => .unfinished c.label
  | .manager m => .manager m
  | .tenant t _ => .tenant t

def rotates (c : Casting) : Bool :=
  match c.role with
  | .tenant _ _ => true
  | _ => false

def settle (c : Casting) (r : Resolver kit) : Except Fault Service :=
  match c.role with
  | .probe p needs watch => do
    let needs ← needs.mapM fun name => do return (name, ← r.typed name "Probe")
    let watch ← watch.mapM fun (name, method) => do return (← r.component name, method)
    return .probe { p with needs, watch }
  | .tenant t (some name) => do return .tenant { t with secretStore := ← r.component name }
  | _ => return c.alone

def peekLine (r : Resolver kit) : String :=
  let flag := r.context.flag "peek"
  let blocking := max r.config.blocking.maxThreads.toNat 1
  s!"peek:{r.context.mode}:{flag}:{r.config.events.capacity}:{blocking}"

def factory (c : Casting) : Factory kit := fun r =>
  { notes := s!"construct:{c.label}@{r.name}" :: if c.peeks then [peekLine r] else []
    product := match c.fault with
      | some message => .error (.internal message)
      | none => do return { service := ← c.settle r, rotates := c.rotates } }

end Casting

inductive Circumstance where
  | flag (name : String)
  | mode (name : String)
  deriving DecidableEq, Repr

namespace Circumstance

def holds (c : Circumstance) (ctx : Context) : Bool :=
  match c with
  | .flag name => ctx.flag name
  | .mode name => ctx.mode == name

end Circumstance

def predicate (name : String) (circumstance : Circumstance) (negated : Bool) :
    Registry.Question Bool where
  note := s!"predicate:{name}"
  answer ctx := circumstance.holds ctx != negated

/-- An abstract name that stands for the target of the first circumstance that holds. -/
def resolver (name : String) (rules : List (Circumstance × String)) (target : String) :
    Registry.Question String where
  note := s!"resolve:{name}"
  answer ctx := ((rules.find? fun rule => rule.1.holds ctx).map (·.2)).getD target

def catalog : List (Registry.Descriptor (Factory kit)) :=
  let casting (name : String) : Casting := ⟨name, .probe { label := name } [] [], false, none⟩
  let blueprint (name : String) : Registry.Blueprint (Factory kit) :=
    .concrete name (casting name).factory
  [⟨(blueprint "catalog-clock").dependsOn "catalog-store", none⟩,
    ⟨blueprint "catalog-store", none⟩]

end Steward.Rehearsal
