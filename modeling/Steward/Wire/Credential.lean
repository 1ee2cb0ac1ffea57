import Steward.Credential
import Steward.Wire.Scalar
/-!
The JSON form of a credential. The password stands in it, so it never leaves the process.
-/
namespace Steward.Credential

open Json (Reader)
open Json.Reader

def toJson (c : Credential) : Json := .object [
  ("username", .string c.username),
  ("password", .string c.password),
  ("lease_id", .string c.leaseId),
  ("lease_duration_secs", .ofNat c.leaseSeconds.toNat),
  ("issued_at", c.issuedAt.toJson)]

structure Draft where
  username : Option String := none
  password : Option String := none
  leaseId : Option String := none
  leaseSeconds : Option UInt64 := none
  issuedAt : Option Instant := none

def Draft.complete (d : Draft) : Option Credential := do
  return ⟨← d.username, ← d.password, ← d.leaseId, ← d.leaseSeconds, ← d.issuedAt⟩

def secondsReader : Reader UInt64 := do return UInt64.ofNat (← natural (2 ^ 64))

def plan (key : String) (d : Draft) : KeyPlan Draft :=
  match key with
  | "username" => .fill d.username string fun x => { d with username := some x }
  | "password" => .fill d.password string fun x => { d with password := some x }
  | "lease_id" => .fill d.leaseId string fun x => { d with leaseId := some x }
  | "lease_duration_secs" => .fill d.leaseSeconds secondsReader fun x =>
    { d with leaseSeconds := some x }
  | "issued_at" => .fill d.issuedAt Instant.reader fun x => { d with issuedAt := some x }
  | _ => .ignore

def fields : Reader Credential := do
  let username ← dueItem true string
  let password ← dueItem false string
  let leaseId ← dueItem false string
  let leaseSeconds ← dueItem false secondsReader
  let issuedAt ← dueItem false Instant.reader
  return ⟨username, password, leaseId, leaseSeconds, issuedAt⟩

def reader : Reader Credential := record plan {} Draft.complete fields

end Steward.Credential
