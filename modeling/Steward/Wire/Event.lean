import Steward.Bus
import Steward.Wire.Scalar
/-!
The JSON form of an event: an object whose member `type` tells the kind, which may stand at any
place. The other members are therefore read as values of any shape first.
-/
namespace Steward.Event

open Json (Reader)
open Json.Reader

def toJson : Event → Json
  | .built component token outcome previous status => .object [
    ("type", .string "built"),
    ("component", .string component),
    ("token", token.toJson),
    ("outcome", outcome.toJson),
    ("previous", previous.toJson),
    ("status", status.toJson)]
  | .destroyed component => .object [
    ("type", .string "destroyed"),
    ("component", .string component)]
  | .statusChanged component previous status => .object [
    ("type", .string "status_changed"),
    ("component", .string component),
    ("previous", previous.toJson),
    ("status", status.toJson)]
  | .credentialRotated component attempts => .object [
    ("type", .string "credential_rotated"),
    ("component", .string component),
    ("attempts", .ofNat attempts.toNat)]
  | .rotationExhausted component attempts => .object [
    ("type", .string "rotation_exhausted"),
    ("component", .string component),
    ("attempts", .ofNat attempts.toNat)]

inductive Kind where
  | built
  | destroyed
  | statusChanged
  | credentialRotated
  | rotationExhausted
  deriving DecidableEq

def Kind.ofName? : String → Option Kind
  | "built" => some built
  | "destroyed" => some destroyed
  | "status_changed" => some statusChanged
  | "credential_rotated" => some credentialRotated
  | "rotation_exhausted" => some rotationExhausted
  | _ => none

def Kind.memberNames : Kind → List String
  | built => ["component", "token", "outcome", "previous", "status"]
  | destroyed => ["component"]
  | statusChanged => ["component", "previous", "status"]
  | credentialRotated | rotationExhausted => ["component", "attempts"]

def text? : Json → Option String
  | .string s => some s
  | _ => none

def word? : Json → Option UInt32
  | .number t =>
    match Json.Numeral.read t.toList with
    | .ok (.natural n, []) => if n < 2 ^ 32 then some (UInt32.ofNat n) else none
    | _ => none
  | _ => none

/-- A name by itself, or as the one key of an object that holds nothing. -/
def name? (ofName? : String → Option α) : Json → Option α
  | .string s => ofName? s
  | .object [(s, .null)] | .object [(s, .object [])] => ofName? s
  | _ => none

/-- The event with given members. -/
def Kind.assemble (kind : Kind) (member? : String → Option Json) : Option Event := do
  let component ← member? "component" >>= text?
  match kind with
  | built =>
    return .built component ⟨← member? "token" >>= word?⟩
      (← member? "outcome" >>= name? Outcome.ofName?)
      (← member? "previous" >>= name? Status.ofName?)
      (← member? "status" >>= name? Status.ofName?)
  | destroyed => return .destroyed component
  | statusChanged =>
    return .statusChanged component (← member? "previous" >>= name? Status.ofName?)
      (← member? "status" >>= name? Status.ofName?)
  | credentialRotated => return .credentialRotated component (← member? "attempts" >>= word?)
  | rotationExhausted => return .rotationExhausted component (← member? "attempts" >>= word?)

def ofMembers? (kind : Kind) (members : List (String × Json)) : Option Event :=
  let known := members.filter fun m => kind.memberNames.contains m.1
  if (known.map (·.1)).Nodup then kind.assemble fun name => known.lookup name else none

def ofItems? (kind : Kind) (items : List Json) : Option Event :=
  if items.length = kind.memberNames.length then
    kind.assemble fun name => (kind.memberNames.zip items).lookup name
  else none

structure Draft where
  kind : Option Kind := none
  members : List (String × Json) := []

def memberDepth : Nat := depthLimit - 1

def plan (key : String) (d : Draft) : KeyPlan Draft :=
  if key = "type" then
    .fill d.kind (parsed Kind.ofName?) fun kind => { d with kind := some kind }
  else
    .read do return { d with members := (key, ← value memberDepth) :: d.members }

def Draft.complete (d : Draft) : Option Event := do ofMembers? (← d.kind) d.members.reverse

def fields : Reader Event := do
  let kind ← dueItem true (parsed Kind.ofName?)
  match ofItems? kind (← items (value memberDepth) ((← get).length + 1) false) with
  | some event => return event
  | none => fail .mismatched

def reader : Reader Event := do
  match ← next with
  | '[' =>
    advance
    fields
  | _ => record plan {} Draft.complete (fail .mismatched)

end Steward.Event
