/-!
The status of a component, as its callers see it, and the phase of its life.
Statuses are ranked by severity; combining two keeps the more severe one.
-/
namespace Steward

inductive Status where
  | available
  | unavailable
  | temporarilyUnavailable
  | partiallyAvailable
  | degraded
  deriving DecidableEq, Repr

instance : Inhabited Status := ⟨.unavailable⟩

namespace Status

def worstFirst : List Status :=
  [.unavailable, .temporarilyUnavailable, .partiallyAvailable, .degraded, .available]

def severity : Status → Nat
  | .available => 0
  | .degraded => 1
  | .partiallyAvailable => 2
  | .temporarilyUnavailable => 3
  | .unavailable => 4

def worst (a b : Status) : Status :=
  if a.severity < b.severity then b else a

/-- Calls are refused in the two statuses that promise nothing at all. -/
def acceptsCalls : Status → Bool
  | .unavailable | .temporarilyUnavailable => false
  | _ => true

def isAvailable : Status → Bool
  | .available => true
  | _ => false

/-- The name of a status, on the wire and in messages. -/
def name : Status → String
  | .available => "available"
  | .unavailable => "unavailable"
  | .temporarilyUnavailable => "temporarily_unavailable"
  | .partiallyAvailable => "partially_available"
  | .degraded => "degraded"

def ofName? (s : String) : Option Status :=
  worstFirst.find? fun status => status.name == s

theorem acceptsCalls_iff {s : Status} :
    s.acceptsCalls = true ↔ s ≠ .unavailable ∧ s ≠ .temporarilyUnavailable := by
  cases s <;> simp [acceptsCalls]

theorem severity_injective {a b : Status} (h : a.severity = b.severity) : a = b := by
  cases a <;> cases b <;> first | rfl | cases h

theorem severity_worst (a b : Status) : (a.worst b).severity = max a.severity b.severity := by
  unfold worst
  split <;> omega

theorem worst_comm (a b : Status) : a.worst b = b.worst a :=
  severity_injective (by rw [severity_worst, severity_worst, Nat.max_comm])

theorem worst_assoc (a b c : Status) : (a.worst b).worst c = a.worst (b.worst c) :=
  severity_injective (by simp only [severity_worst, Nat.max_assoc])

@[simp] theorem available_worst (a : Status) : Status.available.worst a = a :=
  severity_injective (by rw [severity_worst]; exact Nat.max_eq_right (Nat.zero_le _))

end Status

/-- Where a component stands in its life. Only the task that holds the component's lock for
writing ever sees `building` or `destroying`. -/
inductive Phase where
  | unbuilt
  | building
  | built
  | destroying
  | destroyed
  deriving DecidableEq, Repr

instance : Inhabited Phase := ⟨.unbuilt⟩

namespace Phase

def all : List Phase := [.unbuilt, .building, .built, .destroying, .destroyed]

def name : Phase → String
  | .unbuilt => "unbuilt"
  | .building => "building"
  | .built => "built"
  | .destroying => "destroying"
  | .destroyed => "destroyed"

def ofName? (s : String) : Option Phase := all.find? fun phase => phase.name == s

end Phase

end Steward
