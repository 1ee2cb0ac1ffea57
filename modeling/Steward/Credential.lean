import Steward.Fault
import Steward.Text.Quoted
import Steward.Time.Instant
/-!
Leased credentials. A slot holds at most one of them and counts how many it has held; a
credential is fresh while its age is below the time to live that the slot declares.
-/
namespace Steward

/-- A user name and a password leased from a secret store. -/
structure Credential where
  username : String
  password : String
  leaseId : String
  /-- The duration that the secret store granted. -/
  leaseSeconds : UInt64
  issuedAt : Instant
  deriving DecidableEq

namespace Credential

def shown (c : Credential) : String :=
  "Credential \x7b username: " ++ Text.shown c.username ++ ", password: \"<redacted>\", lease_id: "
    ++ Text.shown c.leaseId ++ ", lease_duration_secs: " ++ toString c.leaseSeconds
    ++ ", issued_at: " ++ c.issuedAt.text ++ " \x7d"

end Credential

/-- The place of a rotating component's credential. -/
structure Slot where
  owner : String
  current : Option Credential
  /-- How long a credential is taken to live. -/
  ttl : Span
  /-- How many credentials were installed so far. -/
  rotations : Nat

namespace Slot

def empty (owner : String) (ttl : Span) : Slot := ⟨owner, none, ttl, 0⟩

def install (s : Slot) (c : Credential) : Slot :=
  { s with current := some c, rotations := s.rotations + 1 }

def clear (s : Slot) : Slot := { s with current := none }

def issuedAt? (s : Slot) : Option Instant := s.current.map (·.issuedAt)

/-- The longest time to live that an age is compared with, in nanoseconds: 2^63 - 1
milliseconds. A longer one outlasts every representable age. -/
def longestTtl : Nat := (2 ^ 63 - 1) * 1000000

/-- Whether the credential is younger than the time to live. -/
def isFreshAt (s : Slot) (now : Instant) : Bool :=
  match s.current with
  | none => false
  | some c =>
    if longestTtl < s.ttl.nanos then true
    else now.nanosSince c.issuedAt < (s.ttl.nanos : Int)

def fresh (s : Slot) (now : Instant) : Except Refusal Credential :=
  match s.current with
  | some c => if s.isFreshAt now then .ok c else .error (.temporarilyUnavailable s.owner)
  | none => .error (.temporarilyUnavailable s.owner)

end Slot

end Steward
