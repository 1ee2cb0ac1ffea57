import Steward.Setting
import Steward.Number.Binary64
import Steward.Registry.Descriptor
/-!
The configuration of a fleet: its mode and flags, what an abort does, and the settings of the
event bus, the blocking pool, credential rotation and logging. Every setting has a default.
-/
namespace Steward.Config

open Number (Binary64)

inductive AbortPolicy where
  /-- The caller gets the fault. -/
  | propagate
  /-- The process ends at once. -/
  | exit
  deriving DecidableEq, Repr

def AbortPolicy.name : AbortPolicy → String
  | .propagate => "propagate"
  | .exit => "exit"

def AbortPolicy.ofName? (s : String) : Option AbortPolicy :=
  [AbortPolicy.propagate, .exit].find? fun p => p.name == s

inductive Backoff where
  | constant
  | linear
  deriving DecidableEq, Repr

def Backoff.name : Backoff → String
  | .constant => "constant"
  | .linear => "linear"

def Backoff.ofName? (s : String) : Option Backoff :=
  [Backoff.constant, .linear].find? fun b => b.name == s

structure Events where
  /-- How many events are kept for a slow listener. -/
  capacity : UInt64 := 256
  deriving DecidableEq

structure Blocking where
  /-- How many blocking jobs may run at once. -/
  maxThreads : UInt64 := 16
  deriving DecidableEq

structure Rotation where
  /-- The greatest part of the time to live that chance may take off a period. -/
  jitterRatio : Binary64 := .ofDecimal false 8 (-2)
  /-- The bounds of the seconds that are taken off besides. -/
  bufferMinSecs : UInt64 := 20
  bufferMaxSecs : UInt64 := 40
  /-- Attempts after the first. -/
  maxRetry : UInt32 := 2
  /-- The wait between attempts in milliseconds. -/
  waitMillis : UInt64 := 2000
  backoff : Backoff := .constant
  /-- What linear growth adds to a wait, in milliseconds. -/
  offsetMillis : UInt64 := 0
  deriving DecidableEq

structure Logging where
  level : String := "info"
  jsonFormat : Bool := false
  /-- A file that is written besides the standard output, a new one each day. -/
  fileOutput : Option String := none
  deriving DecidableEq

end Config

structure Config where
  mode : String := "default"
  /-- Named flags; a name occurs once. -/
  flags : List (String × Bool) := []
  abortPolicy : Config.AbortPolicy := .propagate
  events : Config.Events := {}
  blocking : Config.Blocking := {}
  rotation : Config.Rotation := {}
  logging : Config.Logging := {}
  deriving DecidableEq

namespace Config

instance : Inhabited Config := ⟨{}⟩

def withMode (c : Config) (mode : String) : Config := { c with mode }

def withFlag (c : Config) (name : String) (value : Bool) : Config :=
  { c with flags := Keyed.put c.flags name value }

/-- What build conditions and stand-ins are decided by. -/
def context (c : Config) : Context := ⟨c.mode, c.flags⟩

end Config

end Steward
