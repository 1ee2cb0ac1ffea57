import Steward.Build
/-!
The circumstances that a fleet is planned for, and what is known of a component before it exists:
how to make it, what must exist before it, which components it is tied to, and on what conditions
it is part of a fleet.
-/
namespace Steward

structure Context where
  mode : String
  flags : List (String × Bool)
  deriving DecidableEq, Repr

namespace Context

/-- A flag that nobody set is off. -/
def flag (c : Context) (name : String) : Bool := (c.flags.lookup name).getD false

instance : Inhabited Context := ⟨⟨"default", []⟩⟩

end Context

/-- A tie from one component onto another. When an operation that the tie follows runs on either
end, it runs on the other end too. -/
structure Link where
  target : String
  toBuild : Bool := true
  toDestroy : Bool := false
  /-- The token of a build pass that follows the tie. -/
  token : Token := .link
  deriving DecidableEq, Repr

namespace Registry

/-- A question about the circumstances, asked by calling a function of the application. The note
stands in the journal once for each time that the function was called. -/
structure Question (α : Type) where
  note : String
  answer : Context → α

inductive Condition where
  | always
  | fixed (value : Bool)
  | asked (question : Question Bool)

namespace Condition

def holds (c : Condition) (ctx : Context) : Bool :=
  match c with
  | .always => true
  | .fixed value => value
  | .asked question => question.answer ctx

def notes : Condition → List String
  | .asked question => [question.note]
  | _ => []

end Condition

inductive Kind (F : Type) where
  | concrete (factory : F) (isManager : Bool)
  | abstract (resolver : Question String)

/-- A component as it is described, whatever the mode. -/
structure Blueprint (F : Type) where
  name : String
  kind : Kind F
  /-- Components that must have been built before. -/
  dependencies : List String := []
  links : List Link := []
  /-- The abstract names that the component may stand in for. -/
  implements : List String := []
  condition : Condition := .always

namespace Blueprint

variable {F : Type}

def concrete (name : String) (factory : F) : Blueprint F :=
  { name, kind := .concrete factory false }

def abstract (name : String) (resolver : Question String) : Blueprint F :=
  { name, kind := .abstract resolver }

def isAbstract (b : Blueprint F) : Bool :=
  match b.kind with
  | .abstract _ => true
  | .concrete _ _ => false

def isManager (b : Blueprint F) : Bool :=
  match b.kind with
  | .concrete _ manager => manager
  | .abstract _ => false

def dependsOn (b : Blueprint F) (name : String) : Blueprint F :=
  { b with dependencies := b.dependencies ++ [name] }

def link (b : Blueprint F) (link : Link) : Blueprint F :=
  { b with links := b.links ++ [link] }

def implementing (b : Blueprint F) (name : String) : Blueprint F :=
  { b with implements := b.implements ++ [name] }

/-- Declares that the component manages mini-services; an abstract name never does. -/
def manager (b : Blueprint F) : Blueprint F :=
  match b.kind with
  | .concrete factory _ => { b with kind := .concrete factory true }
  | .abstract _ => b

def buildOnlyIf (b : Blueprint F) (value : Bool) : Blueprint F :=
  { b with condition := .fixed value }

def buildOnlyWhen (b : Blueprint F) (question : Question Bool) : Blueprint F :=
  { b with condition := .asked question }

def refersTo (b : Blueprint F) (name : String) : Bool :=
  b.dependencies.contains name || b.links.any fun l => l.target == name

end Blueprint

/-- A blueprint, and another one that takes its place in a certain mode. -/
structure Descriptor (F : Type) extends Blueprint F where
  standIn : Option (String × Blueprint F) := none

namespace Descriptor

variable {F : Type}

/-- What counts under given circumstances. A stand-in keeps the name of what it stands in for. -/
def effective (d : Descriptor F) (ctx : Context) : Blueprint F :=
  match d.standIn with
  | some (mode, other) =>
    if mode = ctx.mode then { other with name := d.name } else d.toBlueprint
  | none => d.toBlueprint

@[simp] theorem effective_name (d : Descriptor F) (ctx : Context) :
    (d.effective ctx).name = d.name := by
  unfold effective
  split
  · split <;> rfl
  · rfl

def check (d : Descriptor F) : Except Fault Unit :=
  if d.refersTo d.name then .error (.selfReference d.name)
  else match d.standIn with
    | some (_, other) =>
      if other.refersTo d.name then .error (.selfReference d.name) else .ok ()
    | none => .ok ()

end Descriptor

end Registry

/-- Descriptors in the order of their registration. -/
structure Registry (F : Type) where
  descriptors : List (Registry.Descriptor F)

namespace Registry

variable {F : Type}

def empty : Registry F := ⟨[]⟩

def names (r : Registry F) : List String := r.descriptors.map (·.name)

def contains (r : Registry F) (name : String) : Bool := r.names.contains name

def size (r : Registry F) : Nat := r.descriptors.length

/-- Adds a descriptor under a name that is still free. -/
def register (r : Registry F) (d : Descriptor F) : Except Fault (Registry F) := do
  d.check
  if r.contains d.name then throw (.duplicateComponent d.name)
  return ⟨r.descriptors ++ [d]⟩

def registerAll (r : Registry F) (ds : List (Descriptor F)) : Except Fault (Registry F) :=
  ds.foldlM register r

theorem nodup_names_register {r s : Registry F} {d : Descriptor F}
    (h : r.register d = .ok s) (hr : r.names.Nodup) : s.names.Nodup := by
  unfold register at h
  cases hc : d.check with
  | error f => rw [hc] at h; cases h
  | ok _ =>
    rw [hc] at h
    by_cases hn : r.contains d.name = true
    · simp [hn, bind, Except.bind, throw, throwThe, MonadExceptOf.throw] at h
    · simp [hn, bind, Except.bind, pure, Except.pure] at h
      subst h
      simp only [contains, List.contains_iff_mem] at hn
      simp only [names, List.map_append, List.map_cons, List.map_nil]
      rw [List.nodup_append]
      refine ⟨hr, by simp, ?_⟩
      intro a ha b hb
      simp only [List.mem_singleton] at hb
      exact fun hab => hn (hb ▸ hab ▸ ha)

end Registry

end Steward
