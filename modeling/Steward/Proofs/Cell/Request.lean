import Steward.Proofs.Cell.History
import Steward.Proofs.Crowd.Basic
/-!
Requests to a cell, and what is told of them. An operation tells when it begins to be at work under
the lock and what came of it; whoever looks at a cell tells where it stands; a call tells when it is
let in and when it leaves.
-/
namespace Steward.Cell

open Steward.Action Telling

variable {K : Kit} {ρ : Type}

/-- What is asked of a cell. A call does with the component what its body does, which answers with
a value of type `ρ`. -/
inductive Request (K : Kit) (ρ : Type) where
  | build (token : Token)
  | destroy
  | setStatus (status : Status)
  | rotate
  | call (method : String) (body : Cell K → Hook ρ)
  | status
  | look

inductive Mark where
  /-- An operation begins to be at work; its hooks are run until it is done. -/
  | begun (op : Operation)
  | done (op : Operation) (deed : Deed)
  /-- A gate, a reading of the status or a snapshot has found the cell so. -/
  | saw (s : Standing)
  /-- A call of a method is let in, by a cell that stands so. -/
  | entered (method : String) (s : Standing)
  | left

def attend (id : CellId) (method : String) (body : Cell K → Hook ρ) :
    Action K (Except Refusal ρ) := do
  match ← enter id method with
  | .ok c =>
    let a ← (body c).interpret carry
    release id
    return .ok a
  | .error refusal => return .error refusal

namespace Request

def Answer : Request K ρ → Type
  | .build _ => Except Fault Report
  | .destroy | .setStatus _ => Unit
  | .rotate => Rotation.Result
  | .call _ _ => Except Refusal ρ
  | .status => Status
  | .look => Snapshot

def run (id : CellId) : (r : Request K ρ) → Action K r.Answer
  | .build token => Cell.build id token
  | .destroy => Cell.destroy id
  | .setStatus s => Cell.setStatus id s
  | .rotate => Rotation.tick id
  | .call method body => attend id method body
  | .status => Cell.status id
  | .look => Cell.look id

end Request

def underLock {α : Type} (id : CellId) (op : Operation) (held : Action K (α × Deed)) :
    Telling K Mark α := do
  silent (acquire id .write)
  tell (.begun op)
  let (a, deed) ← silent held
  tell (.done op deed)
  silent (release id)
  return a

def buildTelling (id : CellId) (token : Token) : Telling K Mark (Except Fault Report) := do
  let started ← silent (get (·.now))
  let (name, report) ← underLock id (.build token) (buildHeld pass id token started)
  silent (buildAfter id name report)

def destroyTelling (id : CellId) : Telling K Mark Unit := do
  silent (modify (·.cancelTimer id))
  silent (acquire id .write)
  tell (.begun .destroy)
  match ← silent (get fun w => w.cell? id) with
  | some c =>
    let deed ← silent (destroyHeld tear id c)
    tell (.done .destroy deed)
    silent (release id)
  | none => return ()

def setStatusTelling (id : CellId) (status : Status) : Telling K Mark Unit :=
  underLock id (.setStatus status) do
    modify (assign id status)
    return ((), .assigned status)

def rotateTelling (id : CellId) : Telling K Mark Rotation.Result :=
  underLock id .rotate do
    let result ← rotateHeld id
    return (result, .ofTick result)

def readingTelling {α : Type} (id : CellId) (f : Option (Cell K) → α) : Telling K Mark α := do
  silent (acquire id .read)
  let c? ← silent (get fun w => w.cell? id)
  if let some c := c? then tell (.saw c.standing)
  silent (release id)
  return f c?

def callTelling (id : CellId) (method : String) (body : Cell K → Hook ρ) :
    Telling K Mark (Except Refusal ρ) := do
  silent (acquire id .read)
  match ← silent (get fun w => w.cell? id) with
  | none =>
    silent (release id)
    return .error (.notBuilt "")
  | some c =>
    tell (.saw c.standing)
    match c.standing.gate c.name method with
    | .ok _ =>
      tell (.entered method c.standing)
      let a ← silent ((body c).interpret carry)
      tell .left
      silent (release id)
      return .ok a
    | .error refusal =>
      silent (release id)
      return .error refusal

def Request.telling (id : CellId) : (r : Request K ρ) → Telling K Mark r.Answer
  | .build token => buildTelling id token
  | .destroy => destroyTelling id
  | .setStatus s => setStatusTelling id s
  | .rotate => rotateTelling id
  | .call method body => callTelling id method body
  | .status => readingTelling id fun c => (c.map (·.standing.status)).getD (default : Status)
  | .look => readingTelling id fun c => (c.map Cell.snapshot).getD (.of "" {} none)

theorem mute_underLock {α : Type} (id : CellId) (op : Operation) (held : Action K (α × Deed)) :
    (underLock id op held).mute = do
      acquire id .write
      let (a, _) ← held
      release id
      return a := by
  simp only [underLock, mute_bind, mute_silent, mute_tell, mute_pure, pure_bind]

theorem mute_buildTelling (id : CellId) (token : Token) :
    (buildTelling id token : Telling K Mark _).mute = build id token := by
  rw [build, buildWith_eq]
  simp only [buildTelling, mute_bind, mute_silent, mute_underLock, bind_assoc, pure_bind]

theorem mute_destroyTelling (id : CellId) :
    (destroyTelling id : Telling K Mark Unit).mute = destroy id := by
  rw [destroy, destroyWith_eq]
  simp only [destroyTelling, mute_bind, mute_silent, mute_tell, pure_bind]
  refine bind_congr fun _ => bind_congr fun _ => bind_congr fun c => ?_
  cases c with
  | none => rfl
  | some c => simp only [mute_bind, mute_silent, mute_tell, pure_bind]

theorem mute_setStatusTelling (id : CellId) (status : Status) :
    (setStatusTelling id status : Telling K Mark Unit).mute = setStatus id status := by
  simp only [setStatusTelling, mute_underLock, bind_assoc, pure_bind, setStatus, bind_pure_unit]

theorem mute_rotateTelling (id : CellId) :
    (rotateTelling id : Telling K Mark Rotation.Result).mute = Rotation.tick id := by
  simp only [rotateTelling, mute_underLock, bind_assoc, pure_bind, tick_eq]

theorem mute_readingTelling {α : Type} (id : CellId) (f : Option (Cell K) → α) :
    (readingTelling id f).mute = reading id f := by
  refine congrArg (Program.call (Effect.acquire id .read)) (funext fun _ =>
    congrArg (Program.call (Effect.update _)) (funext fun w => ?_))
  dsimp only
  cases w.cell? id <;> rfl

theorem mute_callTelling (id : CellId) (method : String) (body : Cell K → Hook ρ) :
    (callTelling id method body).mute = attend id method body := by
  simp only [callTelling, mute_bind, mute_silent, attend, enter, bind_assoc]
  refine bind_congr fun _ => bind_congr fun c => ?_
  cases c with
  | none => simp only [mute_bind, mute_silent, mute_pure, bind_assoc, pure_bind]
  | some c =>
    simp only [mute_bind, mute_tell, pure_bind]
    cases c.standing.gate c.name method <;>
      simp only [mute_bind, mute_silent, mute_tell, mute_pure, bind_assoc, pure_bind]

theorem mute_telling (id : CellId) (r : Request K ρ) : (r.telling id).mute = r.run id := by
  cases r with
  | build token => exact mute_buildTelling id token
  | destroy => exact mute_destroyTelling id
  | setStatus status => exact mute_setStatusTelling id status
  | rotate => exact mute_rotateTelling id
  | call method body => exact mute_callTelling id method body
  | status => exact mute_readingTelling id _
  | look => exact mute_readingTelling id _

end Steward.Cell
