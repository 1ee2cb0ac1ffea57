import Steward.Config.Basic
import Steward.Config.Environment
import Steward.Config.Reading
import Steward.Logging.Level
import Steward.Logging.Notice
import Steward.Number.Decimal
import Steward.Text.Basic
import Steward.Toml.Reader
/-!
Loading a configuration: the settings of a file, with those of the environment over them. A file
that was asked for by name need not exist; otherwise the first of the usual files that exists is
taken. What a loaded configuration must satisfy is checked in a fixed order: the first demand that
fails is the one reported.
-/
namespace Steward.Config

open Number (Binary64)

private def demand (holds : Bool) (message : String) : Except Fault Unit :=
  if holds then .ok () else .error (.configuration message none)

def Rotation.validate (r : Rotation) : Except Fault Unit := do
  demand (!r.jitterRatio.lt .zero && r.jitterRatio.lt (.ofNat 1))
    ("Rotation jitter_ratio must be in [0, 1), got " ++ r.jitterRatio.text)
  demand (r.bufferMinSecs ≤ r.bufferMaxSecs)
    ("Rotation buffer range is inverted: " ++ toString r.bufferMinSecs ++ ".."
      ++ toString r.bufferMaxSecs)

def validate (c : Config) : Except Fault Unit := do
  demand (!(Text.trim c.mode.toList).isEmpty) "Mode cannot be empty"
  demand (c.events.capacity ≠ 0) "Event bus capacity cannot be 0"
  demand (c.blocking.maxThreads ≠ 0) "Blocking pool max_threads cannot be 0"
  c.rotation.validate
  discard (Level.read c.logging.level)

def IsValid (c : Config) : Prop := c.validate = .ok ()

structure File where
  path : String
  contents : Option String

structure Sources where
  /-- The file that was asked for by name. -/
  named : Option File := none
  /-- The usual files, the preferred one first. -/
  usual : List File := []
  /-- The name that variables for this application begin with. -/
  application : String := "NOTIFYR"
  environment : List (String × String) := []

namespace Sources

/-- What is told of the search for a file, and the contents of the one that was found. -/
def find (s : Sources) : List Notice × Option String :=
  match s.named with
  | some ⟨path, some contents⟩ => ([.configLoaded path], some contents)
  | some ⟨path, none⟩ => ([.configMissing path], none)
  | none =>
    match s.usual.find? fun f => f.contents.isSome with
    | some f => ([.configLoaded f.path], f.contents)
    | none => ([], none)

def unfit (cause : String) : Fault :=
  .configurationAt "Failed to extract configuration" cause

def fileSettings : Option String → Except Fault Setting
  | none => .ok default
  | some contents =>
    match Toml.read? contents with
    | some settings => .ok settings
    | none => .error (unfit "malformed document")

def combine (s : Sources) (contents : Option String) : Except Fault Config := do
  let lower ← fileSettings contents
  let upper := Environment.settings s.application s.environment
  match ofSetting? (upper.laidOver lower) with
  | none => throw (unfit "a setting of the wrong kind")
  | some config =>
    config.validate
    return config

def load (s : Sources) : List Notice × Except Fault Config :=
  let (notices, contents) := s.find
  (notices, s.combine contents)

theorem isValid_of_combine {s : Sources} {contents : Option String} {config : Config}
    (h : s.combine contents = .ok config) : config.IsValid := by
  unfold combine at h
  cases hl : fileSettings contents with
  | error f => rw [hl] at h; cases h
  | ok lower =>
    rw [hl] at h
    simp only [bind, Except.bind] at h
    split at h
    · cases h
    · split at h
      · cases h
      · rename_i _ c _ _ u hv
        cases h
        exact hv

end Sources

end Steward.Config
