import Steward.Build
import Steward.Wire.Scalar
/-!
The JSON form of a report.
-/
namespace Steward.Report

open Json (Reader)
open Json.Reader

def toJson (r : Report) : Json := .object [
  ("component", .string r.component),
  ("token", r.token.toJson),
  ("outcome", r.outcome.toJson),
  ("status", r.status.toJson),
  ("message", .ofOption .string r.message),
  ("elapsed_ms", .ofNat r.elapsedMillis),
  ("finished_at", r.finishedAt.toJson)]

structure Draft where
  component : Option String := none
  token : Option Token := none
  outcome : Option Outcome := none
  status : Option Status := none
  message : Option (Option String) := none
  elapsedMillis : Option Nat := none
  finishedAt : Option Instant := none

def Draft.complete (d : Draft) : Option Report := do
  return ⟨← d.component, ← d.token, ← d.outcome, ← d.status, d.message.getD none,
    ← d.elapsedMillis, ← d.finishedAt⟩

def plan (key : String) (d : Draft) : KeyPlan Draft :=
  match key with
  | "component" => .fill d.component string fun x => { d with component := some x }
  | "token" => .fill d.token Token.reader fun x => { d with token := some x }
  | "outcome" => .fill d.outcome Outcome.reader fun x => { d with outcome := some x }
  | "status" => .fill d.status Status.reader fun x => { d with status := some x }
  | "message" => .fill d.message (optional string) fun x => { d with message := some x }
  | "elapsed_ms" => .fill d.elapsedMillis (natural (2 ^ 64)) fun x =>
    { d with elapsedMillis := some x }
  | "finished_at" => .fill d.finishedAt Instant.reader fun x => { d with finishedAt := some x }
  | _ => .ignore

def fields : Reader Report := do
  let component ← dueItem true string
  let token ← dueItem false Token.reader
  let outcome ← dueItem false Outcome.reader
  let status ← dueItem false Status.reader
  let message ← dueItem false (optional string)
  let elapsed ← dueItem false (natural (2 ^ 64))
  let finished ← dueItem false Instant.reader
  return ⟨component, token, outcome, status, message, elapsed, finished⟩

def reader : Reader Report := record plan {} Draft.complete fields

end Steward.Report
