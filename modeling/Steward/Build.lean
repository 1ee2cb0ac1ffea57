import Steward.Fault
import Steward.Number.Binary64
import Steward.Status
import Steward.Time.Instant
/-!
One build pass seen from outside: the token that says why it ran, the outcome it had, the status
that follows from the outcome, the fault a hook raised, and the report of all this. The coarse
status is what callers see; the outcome stays beside it, so that a skip and a warning, both
degraded, can be told apart.
-/
namespace Steward

/-- Why a build pass runs: a 32-bit mark of which the first five values have a meaning. -/
structure Token where
  value : UInt32
  deriving DecidableEq, Repr

namespace Token

/-- The first pass a component ever runs. -/
def boot : Token := ⟨0⟩
def link : Token := ⟨1⟩
/-- A pass after a credential was rotated elsewhere. -/
def rotation : Token := ⟨2⟩
/-- A pass an operator asked for. -/
def admin : Token := ⟨3⟩
def remote : Token := ⟨4⟩

instance : Inhabited Token := ⟨boot⟩

def firstCustom : Nat := 100

def isCustom (t : Token) : Bool := firstCustom ≤ t.value.toNat

def name (t : Token) : String :=
  match t.value.toNat with
  | 0 => "boot"
  | 1 => "link"
  | 2 => "rotation"
  | 3 => "admin"
  | 4 => "remote"
  | n => s!"custom({n})"

def ofNat? (n : Nat) : Option Token :=
  if n < 2 ^ 32 then some ⟨UInt32.ofNat n⟩ else none

end Token

inductive Outcome where
  | abort
  | failure
  | warning
  | skip
  | ok
  deriving DecidableEq, Repr

namespace Outcome

def all : List Outcome := [.abort, .failure, .warning, .skip, .ok]

def status : Outcome → Status
  | .ok => .available
  | .warning | .skip => .degraded
  | .failure | .abort => .unavailable

def isFatal : Outcome → Bool
  | .abort => true
  | _ => false

def isUsable : Outcome → Bool
  | .ok | .warning | .skip => true
  | .failure | .abort => false

def name : Outcome → String
  | .abort => "abort"
  | .failure => "failure"
  | .warning => "warning"
  | .skip => "skip"
  | .ok => "ok"

def ofName? (s : String) : Option Outcome := all.find? fun outcome => outcome.name == s

/-- The status of a pass whose hooks asked for the status `wish`. A wish counts only if the pass
is usable, and a blemished pass never ends better than degraded. -/
def statusWith (outcome : Outcome) (wish : Option Status) : Status :=
  match outcome, wish with
  | .ok, some s => s
  | .warning, some s | .skip, some s => outcome.status.worst s
  | _, _ => outcome.status

end Outcome

inductive BuildFault where
  | abort (message : String)
  | failure (message : String)
  | warning (message : String)
  | skip (message : String)
  | notImplemented
  | unexpected (cause : String)
  deriving DecidableEq, Repr

namespace BuildFault

/-- A fault nobody foresaw counts as an abort. -/
def outcome : BuildFault → Outcome
  | .abort _ | .unexpected _ => .abort
  | .failure _ | .notImplemented => .failure
  | .warning _ => .warning
  | .skip _ => .skip

def message : BuildFault → String
  | .abort m => s!"build aborted: {m}"
  | .failure m => s!"build failed: {m}"
  | .warning m => s!"build warning: {m}"
  | .skip m => s!"build skipped: {m}"
  | .notImplemented => "build not implemented"
  | .unexpected cause => s!"unexpected error during build: {cause}"

def cause? : BuildFault → Option String
  | .unexpected cause => some cause
  | _ => none

def ofFault (fault : Fault) : BuildFault := .unexpected fault.message

def ofDevice (cause : String) : BuildFault := .unexpected cause

def orFailure (context cause : String) : BuildFault := .failure s!"{context}: {cause}"
def orWarning (context cause : String) : BuildFault := .warning s!"{context}: {cause}"
def orAbort (context cause : String) : BuildFault := .abort s!"{context}: {cause}"

end BuildFault

structure Report where
  component : String
  token : Token
  outcome : Outcome
  status : Status
  message : Option String
  elapsedMillis : Nat
  finishedAt : Instant
  deriving DecidableEq, Repr

/-- A component is usable after a pass that was usable and led to a status that accepts calls. -/
def Report.isUsable (r : Report) : Bool := r.outcome.isUsable && r.status.acceptsCalls

end Steward
