import Steward.Core.World
/-!
What tasks do to the world. An action is a program over seven effects; between two effects of a
task other tasks may run, so each effect is the whole of what happens at once.
-/
namespace Steward

inductive Invocation where
  | factory (name : String)
  /-- The hooks of one build pass on a component. -/
  | build (cell : CellId) (token : Token)
  /-- The hook that tears a component down. -/
  | destroy (cell : CellId)
  | buildMini (cell : CellId) (token : Token)
  | destroyMini (cell : CellId)
  deriving DecidableEq, Repr

inductive Effect (K : Kit) where
  /-- Changes the world at once, and answers with the world before. -/
  | update (f : World K → World K)
  /-- Code of the application begins, and sees the world. -/
  | invoke (what : Invocation)
  | acquire (cell : CellId) (access : Access)
  | release (cell : CellId)
  | rest (millis : Nat)
  /-- Rests, unless the timer of this task is cancelled: whether that was so. -/
  | restUnlessCancelled (millis : Nat)
  | exit (code : UInt8)

def Effect.Answer {K : Kit} : Effect K → Type
  | .update _ | .invoke _ => World K
  | .acquire _ _ => Unit
  | .release _ => Unit
  | .rest _ => Unit
  | .restUnlessCancelled _ => Bool
  | .exit _ => Empty

abbrev Action (K : Kit) := Program (Effect.Answer (K := K))

namespace Action

variable {K : Kit} {α : Type}

def modify (f : World K → World K) : Action K Unit := .call (Effect.update f) fun _ => .done ()

def get (f : World K → α) : Action K α := .call (Effect.update id) fun w => .done (f w)

def getModify (f : World K → α) (g : World K → World K) : Action K α :=
  .call (Effect.update g) fun w => .done (f w)

def invoke (what : Invocation) (f : World K → α) : Action K α :=
  .call (Effect.invoke what) fun w => .done (f w)

def acquire (cell : CellId) (access : Access) : Action K Unit :=
  .ask (Effect.acquire cell access)

def release (cell : CellId) : Action K Unit := .ask (Effect.release cell)

def rest (millis : Nat) : Action K Unit := .ask (Effect.rest millis)

def restUnlessCancelled (millis : Nat) : Action K Bool :=
  .ask (Effect.restUnlessCancelled millis)

/-- Ends the process; nothing of the program is left to do. -/
def exit (code : UInt8) : Action K α := .call (Effect.exit code) nofun

def note (line : String) : Action K Unit := modify (·.note line)

def report (notice : Notice) : Action K Unit := modify (·.report notice)

def reading (cell : CellId) (f : Option (Cell K) → α) : Action K α := do
  acquire cell .read
  let a ← get fun w => f (w.cell? cell)
  release cell
  return a

end Action

end Steward
