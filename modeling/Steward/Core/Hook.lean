import Steward.Cell.Scope
import Steward.Core.Program
import Steward.Credential
import Steward.Logging.Notice
import Steward.Rotation.Policy
/-!
What an application supplies: its components and mini-services, and what their hooks do. Hooks are
programs, so whatever they do goes through the calls below; all else about them is arbitrary.
-/
namespace Steward

abbrev CellId := Nat

namespace Hook

inductive Call where
  /-- Writes a line to the journal. -/
  | note (line : String)
  | rest (millis : Nat)
  /-- The status of another component, once no writer is at work on it. -/
  | statusOf (cell : CellId)
  | clock

def Call.Answer : Call → Type
  | .note _ => Unit
  | .rest _ => Unit
  | .statusOf _ => Status
  | .clock => Instant

end Hook

abbrev Hook := Program Hook.Call.Answer

namespace Hook

def note (line : String) : Hook Unit := .ask (Call.note line)

def rest (millis : Nat) : Hook Unit := .ask (Call.rest millis)

def statusOf (cell : CellId) : Hook Status := .ask (Call.statusOf cell)

def clock : Hook Instant := .ask Call.clock

end Hook

namespace PoolHook

inductive Call (μ : Type) where
  | plain (call : Hook.Call)
  | report (notice : Notice)
  | enroll (name : String) (mini : μ)
  /-- Runs a build pass on the cell of a mini-service. -/
  | build (cell : CellId) (token : Token)
  | destroy (cell : CellId)

def Call.Answer {μ : Type} : Call μ → Type
  | .plain call => call.Answer
  | .report _ => Unit
  | .enroll _ _ => CellId
  | .build _ _ => Except Fault Report
  | .destroy _ => Unit

end PoolHook

abbrev PoolHook (μ : Type) := Program (PoolHook.Call.Answer (μ := μ))

namespace PoolHook

variable {μ α : Type}

def ofHook (h : Hook α) : PoolHook μ α := h.interpret fun call => .ask (Call.plain call)

def report (notice : Notice) : PoolHook μ Unit := .ask (Call.report notice)

def enroll (name : String) (mini : μ) : PoolHook μ CellId := .ask (Call.enroll name mini)

def build (cell : CellId) (token : Token) : PoolHook μ (Except Fault Report) :=
  .ask (Call.build cell token)

def destroy (cell : CellId) : PoolHook μ Unit := .ask (Call.destroy cell)

end PoolHook

structure Behaviour (H : Type → Type) (τ : Type) where
  typeName : τ → String
  check : τ → H Ending
  verify : τ → Scope → H (τ × Scope × Ending)
  build : τ → Scope → H (τ × Scope × Ending)
  destroy : τ → H (τ × Ending)

/-- The hooks of one build pass; the first one that does not succeed is the last one. -/
def Behaviour.pass {H : Type → Type} [Monad H] {τ : Type} (b : Behaviour H τ) (t : τ)
    (scope : Scope) : H (τ × Scope × Ending) := do
  match ← b.check t with
  | .ok =>
    match ← b.verify t scope with
    | (t, scope, .ok) => b.build t scope
    | stopped => return stopped
  | stopped => return (t, scope, stopped)

namespace Rotation

inductive Attempt where
  | granted (credential : Credential)
  /-- The secret store refused; trying again may help. -/
  | transient (message : String)
  | failed (message : String)
  | panicked

end Rotation

/-- The components and mini-services of an application. -/
structure Kit where
  Service : Type
  Mini : Type
  service : Behaviour (PoolHook Mini) Service
  mini : Behaviour Hook Mini
  /-- The mini-services that a manager has pooled; none for a component that is no manager. -/
  pooled : Service → Option (List (String × CellId))
  /-- The place of a rotating component's credential. -/
  slot : Service → Slot
  withSlot : Service → Slot → Service
  policy : Service → Rotation.Policy
  /-- The status of the secret store; none if looking it up panics. -/
  storeStatus : Service → Hook (Service × Option Status)
  rotate : Service → Hook (Service × Rotation.Attempt)

end Steward
