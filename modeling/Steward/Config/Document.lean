import Steward.Config.Basic
import Steward.Fault
import Steward.Toml.Writer
/-!
The document that a configuration is saved as: every setting with its value, also where this is the
default.
-/
namespace Steward.Config

open Toml

private def natText (n : Nat) : List Char := (toString n).toList

def Events.entries (e : Events) : List (String × List Char) :=
  [("capacity", natText e.capacity.toNat)]

def Blocking.entries (b : Blocking) : List (String × List Char) :=
  [("max_threads", natText b.maxThreads.toNat)]

def Rotation.entries (r : Rotation) : List (String × List Char) :=
  [("jitter_ratio", realText r.jitterRatio),
    ("buffer_min_secs", natText r.bufferMinSecs.toNat),
    ("buffer_max_secs", natText r.bufferMaxSecs.toNat),
    ("max_retry", natText r.maxRetry.toNat),
    ("wait_ms", natText r.waitMillis.toNat),
    ("backoff", stringText r.backoff.name),
    ("offset_ms", natText r.offsetMillis.toNat)]

/-- A file that is not set is left out. -/
def Logging.entries (l : Logging) : List (String × List Char) :=
  [("level", stringText l.level), ("json_format", truthText l.jsonFormat)]
    ++ (l.fileOutput.map fun path => ("file_output", stringText path)).toList

def document (c : Config) : String :=
  String.ofList (
    assignmentLine "mode" (stringText c.mode)
    ++ assignmentLine "abort_policy" (stringText c.abortPolicy.name)
    ++ tableText "flags" (c.flags.map fun f => (f.1, truthText f.2))
    ++ tableText "events" c.events.entries
    ++ tableText "blocking" c.blocking.entries
    ++ tableText "rotation" c.rotation.entries
    ++ tableText "logging" c.logging.entries)

/-- What a file gets that a configuration is saved to, given whether it can be written. -/
def save (c : Config) (canWrite : Bool) : Except Fault String :=
  if canWrite then .ok c.document
  else .error (.deviceFailing "Failed to write config file" "no such folder")

end Steward.Config
