import Steward.Rehearsal.Probe
/-!
A tenant: a rehearsed component that holds a leased credential. Each lease ends as its script
says.
-/
namespace Steward.Rehearsal

structure Tenant where
  label : String
  slot : Slot
  policy : Rotation.Policy
  /-- How the coming attempts to lease end. -/
  leases : List Script := []
  queue : List Script := []
  build : Option Script := none
  /-- The statuses that the secret store is next found in. -/
  storeStatuses : List Status := []
  /-- The component that is the secret store. -/
  secretStore : Option CellId := none
  /-- Whether a build pass leaves the credential alone. -/
  noCredential : Bool := false
  asked : Nat := 0

namespace Tenant

def leaseSeconds : UInt64 := 3600

/-- A credential issued at a given moment. -/
def credential (tag : String) (issuedAt : Instant) : Credential :=
  ⟨s!"svc-{tag}", "pw", s!"lease/{tag}", leaseSeconds, issuedAt⟩

def buildHook (t : Tenant) (scope : Scope) : Hook (Tenant × Scope × Ending) := do
  Hook.note (buildLine t.label scope)
  let now ← Hook.clock
  let slot := if t.noCredential then t.slot else t.slot.install (credential "boot" now)
  let (script, queue) := Script.next t.queue t.build
  return ({ t with slot, queue }, scope, Script.endingOf t.label script)

def destroyHook (t : Tenant) : Hook (Tenant × Ending) := do
  Hook.note s!"destroy:{t.label}"
  return (t, .ok)

def storeStatusHook (t : Tenant) : Hook (Tenant × Status) := do
  match t.storeStatuses, t.secretStore with
  | status :: rest, _ => return ({ t with storeStatuses := rest }, status)
  | [], some cell => return (t, ← Hook.statusOf cell)
  | [], none => return (t, .available)

def rotateHook (t : Tenant) : Hook (Tenant × Rotation.Attempt) := do
  let asked := t.asked + 1
  Hook.note s!"rotate:{t.label}:{asked}"
  let (script, leases) := Script.next t.leases none
  let script := script.getD ⟨"granted", none⟩
  let message := script.message.getD script.kind
  let t := { t with asked, leases }
  match script.kind with
  | "transient" => return (t, .transient message)
  | "failed" => return (t, .failed message)
  | _ => return (t, .granted (credential (toString asked) (← Hook.clock)))

end Tenant

end Steward.Rehearsal
