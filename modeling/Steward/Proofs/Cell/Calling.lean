import Steward.Proofs.Cell.Exclusion
/-!
When operations on a cell are called, and when they have returned. A build or a teardown does
something before it has the lock and after it has given it up, so what is told under the lock is not
all that there is to tell.
-/
namespace Steward.Cell

open Steward.Action Telling

variable {K : Kit} {ρ : Type}

deriving instance DecidableEq for Operation, Mark

inductive Word where
  | called (op : Operation)
  /-- What is told of the cell meanwhile. -/
  | told (mark : Mark)
  | returned (op : Operation)
  deriving DecidableEq

/-- A build pass was through that is of use. -/
def Mark.isUsablePass : Mark → Bool
  | .done _ (.built _ ending) => ending.outcome.isUsable
  | _ => false

def Word.isUsablePass : Word → Bool
  | .told mark => mark.isUsablePass
  | _ => false

def tellAny (word? : Option Word) : Telling K Word Unit :=
  match word? with
  | some word => tell word
  | none => return ()

namespace Request

def operation? : Request K ρ → Option Operation
  | .build token => some (.build token)
  | .destroy => some .destroy
  | .setStatus s => some (.setStatus s)
  | .rotate => some .rotate
  | .call _ _ | .status | .look => none

/-- A request that also tells when it is called and when it has returned. -/
def calling (id : CellId) (r : Request K ρ) : Telling K Word r.Answer := do
  tellAny (r.operation?.map .called)
  let a ← relay .told (r.telling id)
  tellAny (r.operation?.map .returned)
  return a

end Request

@[simp] theorem mute_tellAny (word? : Option Word) :
    (tellAny word? : Telling K Word Unit).mute = pure () := by
  cases word? <;> rfl

theorem mute_calling (id : CellId) (r : Request K ρ) : (r.calling id).mute = r.run id := by
  simp only [Request.calling, mute_bind, mute_tellAny, mute_relay, mute_telling, mute_pure,
    pure_bind, bind_pure]

/-- Tasks that make requests to a cell, and tell nothing. -/
def summon (id : CellId) (tasks : Requests K ρ) (w : World K) (locks : CellId → Lock) :
    Crowd K Word where
  world := w
  locks := locks
  tasks t := silent ((tasks t).interpret (Request.run id))

/-- The same tasks, which tell of all that they call. -/
def summonTelling (id : CellId) (tasks : Requests K ρ) (w : World K) (locks : CellId → Lock) :
    Crowd K Word where
  world := w
  locks := locks
  tasks t := (tasks t).interpret (Request.calling id)

theorem mute_summonTelling (id : CellId) (tasks : Requests K ρ) (w : World K)
    (locks : CellId → Lock) :
    (summonTelling id tasks w locks).mute = summon id tasks w locks := by
  have htasks : ∀ t, Telling.mute ((tasks t).interpret (Request.calling id)) =
      (tasks t).interpret (Request.run id) := fun t => by
    simp only [mute_interpret, mute_calling]
  exact congrArg (fun tasks => (⟨w, locks, tasks, []⟩ : Crowd K Word))
    (funext fun t => congrArg silent (htasks t))

end Steward.Cell
