import Steward.Wire.Scalar
/-!
Messages of other processes that ask to change the state of a component, or of one mini-service
of a manager: a status to assign, and whether to destroy and to build afterwards.
-/
namespace Steward

structure Change where
  component : String
  /-- The mini-service that is meant; none for the component itself. -/
  id : Option String := none
  status : Status
  toDestroy : Bool := false
  toBuild : Bool := false
  buildToken : Option Token := none
  deriving DecidableEq, Repr

namespace Change

def assign (component : String) (status : Status) : Change := { component, status }

def mini (c : Change) (id : String) : Change := { c with id := some id }

def destroy (c : Change) : Change := { c with toDestroy := true }

def build (c : Change) (token : Token) : Change :=
  { c with toBuild := true, buildToken := some token }

/-- The token of the build that is asked for. -/
def token (c : Change) : Token := c.buildToken.getD .remote

open Json (Reader)
open Json.Reader

/-- An absent id is left out; an absent token is written as null. -/
def toJson (c : Change) : Json := .object <|
  [("component", .string c.component)]
  ++ (c.id.map fun id => ("id", Json.string id)).toList
  ++ [("status", c.status.toJson),
    ("to_destroy", .bool c.toDestroy),
    ("to_build", .bool c.toBuild),
    ("build_token", .ofOption Token.toJson c.buildToken)]

structure Draft where
  component : Option String := none
  id : Option (Option String) := none
  status : Option Status := none
  toDestroy : Option Bool := none
  toBuild : Option Bool := none
  buildToken : Option (Option Token) := none

def Draft.complete (d : Draft) : Option Change := do
  return ⟨← d.component, d.id.getD none, ← d.status, d.toDestroy.getD false,
    d.toBuild.getD false, d.buildToken.getD none⟩

def plan (key : String) (d : Draft) : KeyPlan Draft :=
  match key with
  | "component" => .fill d.component string fun x => { d with component := some x }
  | "id" => .fill d.id (optional string) fun x => { d with id := some x }
  | "status" => .fill d.status Status.reader fun x => { d with status := some x }
  | "to_destroy" => .fill d.toDestroy bool fun x => { d with toDestroy := some x }
  | "to_build" => .fill d.toBuild bool fun x => { d with toBuild := some x }
  | "build_token" => .fill d.buildToken (optional Token.reader) fun x =>
    { d with buildToken := some x }
  | _ => .ignore

def fields : Reader Change := do
  let component ← dueItem true string
  let id ← item false (optional string)
  let status ← dueItem false Status.reader
  let toDestroy ← item false bool
  let toBuild ← item false bool
  let buildToken ← item false (optional Token.reader)
  return ⟨component, id.getD none, status, toDestroy.getD false, toBuild.getD false,
    buildToken.getD none⟩

def reader : Reader Change := record plan {} Draft.complete fields

def decode (text : String) : Except Fault Change := (Json.decode reader text).mapError .json

def encode (c : Change) : String := c.toJson.text

end Change

end Steward
