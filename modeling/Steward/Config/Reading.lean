import Steward.Config.Basic
import Steward.Setting
/-!
Making a configuration from settings. Each setting must be of its kind; settings that mean nothing
are passed over, and whatever is missing takes its default. A section may also be written as the
list of its settings.
-/
namespace Steward

open Number (Binary64)

namespace Setting

def text? : Setting → Option String
  | .text s => some s
  | _ => none

def flag? : Setting → Option Bool
  | .flag b => some b
  | _ => none

def natural? (bound : Nat) : Setting → Option Nat
  | .whole n => if 0 ≤ n ∧ n < bound then some n.toNat else none
  | _ => none

def word? (s : Setting) : Option UInt64 := (s.natural? (2 ^ 64)).map UInt64.ofNat

def halfWord? (s : Setting) : Option UInt32 := (s.natural? (2 ^ 32)).map UInt32.ofNat

def real? : Setting → Option Binary64
  | .real x => some x
  | .whole n => some (if n < 0 then (Binary64.ofNat n.natAbs).neg else .ofNat n.natAbs)
  | _ => none

def named? {α : Type} (ofName? : String → Option α) (s : Setting) : Option α :=
  s.text?.bind ofName?

def isSection : Setting → Bool
  | .group _ | .list _ => true
  | _ => false

def part? (s : Setting) (place : Nat) (name : String) : Option Setting :=
  match s with
  | .group ms => ms.lookup name
  | .list items => items[place]?
  | _ => none

def part {α : Type} (s : Setting) (place : Nat) (name : String) (read? : Setting → Option α)
    (absent : α) : Option α :=
  match s.part? place name with
  | some t => read? t
  | none => some absent

end Setting

namespace Config

def Events.ofSetting? (s : Setting) : Option Events := do
  let start : Events := {}
  guard s.isSection
  return ⟨← s.part 0 "capacity" Setting.word? start.capacity⟩

def Blocking.ofSetting? (s : Setting) : Option Blocking := do
  let start : Blocking := {}
  guard s.isSection
  return ⟨← s.part 0 "max_threads" Setting.word? start.maxThreads⟩

def Rotation.ofSetting? (s : Setting) : Option Rotation := do
  let start : Rotation := {}
  guard s.isSection
  let jitterRatio ← s.part 0 "jitter_ratio" Setting.real? start.jitterRatio
  let bufferMinSecs ← s.part 1 "buffer_min_secs" Setting.word? start.bufferMinSecs
  let bufferMaxSecs ← s.part 2 "buffer_max_secs" Setting.word? start.bufferMaxSecs
  let maxRetry ← s.part 3 "max_retry" Setting.halfWord? start.maxRetry
  let waitMillis ← s.part 4 "wait_ms" Setting.word? start.waitMillis
  let backoff ← s.part 5 "backoff" (Setting.named? Backoff.ofName?) start.backoff
  let offsetMillis ← s.part 6 "offset_ms" Setting.word? start.offsetMillis
  return ⟨jitterRatio, bufferMinSecs, bufferMaxSecs, maxRetry, waitMillis, backoff, offsetMillis⟩

def Logging.ofSetting? (s : Setting) : Option Logging := do
  let start : Logging := {}
  guard s.isSection
  let level ← s.part 0 "level" Setting.text? start.level
  let jsonFormat ← s.part 1 "json_format" Setting.flag? start.jsonFormat
  let fileOutput ← s.part 2 "file_output" (fun t => t.text?.map some) start.fileOutput
  return { level, jsonFormat, fileOutput }

def flagsOfSetting? : Setting → Option (List (String × Bool))
  | .group ms => ms.mapM fun (name, s) => do return (name, ← s.flag?)
  | _ => none

def ofSetting? (s : Setting) : Option Config := do
  let start : Config := {}
  let mode ← s.part 0 "mode" Setting.text? start.mode
  let flags ← s.part 1 "flags" flagsOfSetting? start.flags
  let abortPolicy ← s.part 2 "abort_policy" (Setting.named? AbortPolicy.ofName?) start.abortPolicy
  let events ← s.part 3 "events" Events.ofSetting? start.events
  let blocking ← s.part 4 "blocking" Blocking.ofSetting? start.blocking
  let rotation ← s.part 5 "rotation" Rotation.ofSetting? start.rotation
  let logging ← s.part 6 "logging" Logging.ofSetting? start.logging
  return { mode, flags, abortPolicy, events, blocking, rotation, logging }

end Config

end Steward
