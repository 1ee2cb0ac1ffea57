import Steward.Config.Basic
import Steward.Wire.Scalar
/-!
The JSON form of a configuration. Whatever is missing takes its default.
-/
namespace Steward.Config

open Json (Reader)
open Json.Reader

namespace AbortPolicy

def toJson (p : AbortPolicy) : Json := .string p.name

def reader : Reader AbortPolicy := named ofName?

end AbortPolicy

namespace Backoff

def toJson (b : Backoff) : Json := .string b.name

def reader : Reader Backoff := named ofName?

end Backoff

def word : Reader UInt64 := do return UInt64.ofNat (← natural (2 ^ 64))

def halfWord : Reader UInt32 := do return UInt32.ofNat (← natural (2 ^ 32))

namespace Events

structure Draft where
  capacity : Option UInt64 := none

def Draft.complete (d : Draft) : Events :=
  let start : Events := {}
  { capacity := d.capacity.getD start.capacity }

def plan (key : String) (d : Draft) : KeyPlan Draft :=
  match key with
  | "capacity" => .fill d.capacity word fun x => { d with capacity := some x }
  | _ => .ignore

def fields : Reader Events := do
  let capacity ← item true word
  return Draft.complete ⟨capacity⟩

def reader : Reader Events := record plan {} (some ∘ Draft.complete) fields

def toJson (e : Events) : Json := .object [("capacity", .ofNat e.capacity.toNat)]

end Events

namespace Blocking

structure Draft where
  maxThreads : Option UInt64 := none

def Draft.complete (d : Draft) : Blocking :=
  let start : Blocking := {}
  { maxThreads := d.maxThreads.getD start.maxThreads }

def plan (key : String) (d : Draft) : KeyPlan Draft :=
  match key with
  | "max_threads" => .fill d.maxThreads word fun x => { d with maxThreads := some x }
  | _ => .ignore

def fields : Reader Blocking := do
  let maxThreads ← item true word
  return Draft.complete ⟨maxThreads⟩

def reader : Reader Blocking := record plan {} (some ∘ Draft.complete) fields

def toJson (b : Blocking) : Json := .object [("max_threads", .ofNat b.maxThreads.toNat)]

end Blocking

namespace Rotation

structure Draft where
  jitterRatio : Option Number.Binary64 := none
  bufferMinSecs : Option UInt64 := none
  bufferMaxSecs : Option UInt64 := none
  maxRetry : Option UInt32 := none
  waitMillis : Option UInt64 := none
  backoff : Option Backoff := none
  offsetMillis : Option UInt64 := none

def Draft.complete (d : Draft) : Rotation :=
  let start : Rotation := {}
  { jitterRatio := d.jitterRatio.getD start.jitterRatio
    bufferMinSecs := d.bufferMinSecs.getD start.bufferMinSecs
    bufferMaxSecs := d.bufferMaxSecs.getD start.bufferMaxSecs
    maxRetry := d.maxRetry.getD start.maxRetry
    waitMillis := d.waitMillis.getD start.waitMillis
    backoff := d.backoff.getD start.backoff
    offsetMillis := d.offsetMillis.getD start.offsetMillis }

def plan (key : String) (d : Draft) : KeyPlan Draft :=
  match key with
  | "jitter_ratio" => .fill d.jitterRatio real fun x => { d with jitterRatio := some x }
  | "buffer_min_secs" => .fill d.bufferMinSecs word fun x => { d with bufferMinSecs := some x }
  | "buffer_max_secs" => .fill d.bufferMaxSecs word fun x => { d with bufferMaxSecs := some x }
  | "max_retry" => .fill d.maxRetry halfWord fun x => { d with maxRetry := some x }
  | "wait_ms" => .fill d.waitMillis word fun x => { d with waitMillis := some x }
  | "backoff" => .fill d.backoff Backoff.reader fun x => { d with backoff := some x }
  | "offset_ms" => .fill d.offsetMillis word fun x => { d with offsetMillis := some x }
  | _ => .ignore

def fields : Reader Rotation := do
  let jitterRatio ← item true real
  let bufferMinSecs ← item false word
  let bufferMaxSecs ← item false word
  let maxRetry ← item false halfWord
  let waitMillis ← item false word
  let backoff ← item false Backoff.reader
  let offsetMillis ← item false word
  return Draft.complete ⟨jitterRatio, bufferMinSecs, bufferMaxSecs, maxRetry, waitMillis,
    backoff, offsetMillis⟩

def reader : Reader Rotation := record plan {} (some ∘ Draft.complete) fields

/-- The members of a rotation section, with the ratio written by `real`. -/
def toJson (real : Number.Binary64 → Json) (r : Rotation) : Json := .object [
  ("jitter_ratio", real r.jitterRatio),
  ("buffer_min_secs", .ofNat r.bufferMinSecs.toNat),
  ("buffer_max_secs", .ofNat r.bufferMaxSecs.toNat),
  ("max_retry", .ofNat r.maxRetry.toNat),
  ("wait_ms", .ofNat r.waitMillis.toNat),
  ("backoff", r.backoff.toJson),
  ("offset_ms", .ofNat r.offsetMillis.toNat)]

end Rotation

namespace Logging

structure Draft where
  level : Option String := none
  jsonFormat : Option Bool := none
  fileOutput : Option (Option String) := none

def Draft.complete (d : Draft) : Logging :=
  let start : Logging := {}
  { level := d.level.getD start.level
    jsonFormat := d.jsonFormat.getD start.jsonFormat
    fileOutput := d.fileOutput.getD start.fileOutput }

def plan (key : String) (d : Draft) : KeyPlan Draft :=
  match key with
  | "level" => .fill d.level string fun x => { d with level := some x }
  | "json_format" => .fill d.jsonFormat bool fun x => { d with jsonFormat := some x }
  | "file_output" => .fill d.fileOutput (optional string) fun x => { d with fileOutput := some x }
  | _ => .ignore

def fields : Reader Logging := do
  let level ← item true string
  let jsonFormat ← item false bool
  let fileOutput ← item false (optional string)
  return Draft.complete ⟨level, jsonFormat, fileOutput⟩

def reader : Reader Logging := record plan {} (some ∘ Draft.complete) fields

def toJson (l : Logging) : Json := .object [
  ("level", .string l.level),
  ("json_format", .bool l.jsonFormat),
  ("file_output", .ofOption .string l.fileOutput)]

end Logging

def flagsReader : Reader (List (String × Bool)) := do
  match ← next with
  | '{' =>
    advance
    members (fun name flags => .read (Keyed.put flags name <$> bool)) ((← get).length + 1) true []
  | _ => unwanted

structure Draft where
  mode : Option String := none
  flags : Option (List (String × Bool)) := none
  abortPolicy : Option AbortPolicy := none
  events : Option Events := none
  blocking : Option Blocking := none
  rotation : Option Rotation := none
  logging : Option Logging := none

def Draft.complete (d : Draft) : Config :=
  let start : Config := {}
  { mode := d.mode.getD start.mode
    flags := d.flags.getD start.flags
    abortPolicy := d.abortPolicy.getD start.abortPolicy
    events := d.events.getD start.events
    blocking := d.blocking.getD start.blocking
    rotation := d.rotation.getD start.rotation
    logging := d.logging.getD start.logging }

def plan (key : String) (d : Draft) : KeyPlan Draft :=
  match key with
  | "mode" => .fill d.mode string fun x => { d with mode := some x }
  | "flags" => .fill d.flags flagsReader fun x => { d with flags := some x }
  | "abort_policy" => .fill d.abortPolicy AbortPolicy.reader fun x =>
    { d with abortPolicy := some x }
  | "events" => .fill d.events Events.reader fun x => { d with events := some x }
  | "blocking" => .fill d.blocking Blocking.reader fun x => { d with blocking := some x }
  | "rotation" => .fill d.rotation Rotation.reader fun x => { d with rotation := some x }
  | "logging" => .fill d.logging Logging.reader fun x => { d with logging := some x }
  | _ => .ignore

def fields : Reader Config := do
  let mode ← item true string
  let flags ← item false flagsReader
  let abortPolicy ← item false AbortPolicy.reader
  let events ← item false Events.reader
  let blocking ← item false Blocking.reader
  let rotation ← item false Rotation.reader
  let logging ← item false Logging.reader
  return Draft.complete ⟨mode, flags, abortPolicy, events, blocking, rotation, logging⟩

def reader : Reader Config := record plan {} (some ∘ Draft.complete) fields

/-- The members of a configuration, with real numbers written by `real`. -/
def toJson (real : Number.Binary64 → Json) (c : Config) : Json := .object [
  ("mode", .string c.mode),
  ("flags", .object (c.flags.map fun (name, value) => (name, .bool value))),
  ("abort_policy", c.abortPolicy.toJson),
  ("events", c.events.toJson),
  ("blocking", c.blocking.toJson),
  ("rotation", c.rotation.toJson real),
  ("logging", c.logging.toJson)]

end Steward.Config
