import Steward.Fault
import Steward.Build
/-!
Where a component stands: what its gate judges calls by, and what operators see. Only four
operations change it, each by one of the functions below.
-/
namespace Steward

structure Standing where
  status : Status := .unavailable
  phase : Phase := .unbuilt
  /-- Whether the last pass that was run did not abort, and nothing was destroyed since. -/
  built : Bool := false
  destroyed : Bool := false
  /-- The methods that the last pass left closed; each stands here once. -/
  disabled : List String := []
  lastReport : Option Report := none
  deriving DecidableEq, Repr

namespace Standing

instance : Inhabited Standing := ⟨{}⟩

/-- Whether a call may proceed; of several reasons against it the first one counts. -/
def gate (s : Standing) (component method : String) : Except Refusal Unit :=
  if s.destroyed then .error (.destroyed component)
  else if !s.built then .error (.notBuilt component)
  else match s.status with
    | .unavailable => .error (.unavailable component)
    | .temporarilyUnavailable => .error (.temporarilyUnavailable component)
    | _ =>
      if s.disabled.contains method then .error (.methodDisabled component method)
      else .ok ()

def beginBuild (s : Standing) : Standing := { s with phase := .building }

def endBuild (_ : Standing) (report : Report) (disabled : List String) : Standing where
  status := report.status
  phase := .built
  built := !report.outcome.isFatal
  destroyed := false
  disabled := disabled
  lastReport := some report

def beginDestroy (s : Standing) : Standing := { s with phase := .destroying }

def endDestroy (s : Standing) : Standing :=
  { s with
    status := .unavailable
    phase := .destroyed
    built := false
    destroyed := true
    disabled := [] }

def assign (s : Standing) (status : Status) : Standing := { s with status }

theorem gate_eq_ok_iff {s : Standing} {component method : String} :
    s.gate component method = .ok () ↔
      s.destroyed = false ∧ s.built = true ∧ s.status.acceptsCalls = true ∧
        method ∉ s.disabled := by
  unfold gate
  cases s.destroyed <;> cases s.built <;> cases s.status <;> simp [Status.acceptsCalls]

end Standing

structure Snapshot where
  name : String
  status : Status
  phase : Phase
  built : Bool
  destroyed : Bool
  /-- In alphabetical order. -/
  disabledMethods : List String
  lastReport : Option Report
  /-- How many mini-services a manager has. -/
  miniServices : Option Nat
  deriving DecidableEq, Repr

def Snapshot.of (name : String) (s : Standing) (miniServices : Option Nat) : Snapshot where
  name := name
  status := s.status
  phase := s.phase
  built := s.built
  destroyed := s.destroyed
  disabledMethods := s.disabled.mergeSort (· ≤ ·)
  lastReport := s.lastReport
  miniServices := miniServices

end Steward
