import Steward.Rehearsal.Manager
import Steward.Rehearsal.Tenant
/-!
The kit of all rehearsed components.
-/
namespace Steward.Rehearsal

inductive Service where
  | probe (probe : Probe)
  /-- A component without any hook of its own. -/
  | unfinished (label : String)
  | manager (manager : Manager)
  | tenant (tenant : Tenant)

namespace Service

def typeName : Service → String
  | .probe _ => "Probe"
  | .unfinished _ => "Unfinished"
  | .manager _ => "Manager"
  | .tenant _ => "Rotating"

def label : Service → String
  | .probe p => p.label
  | .unfinished label => label
  | .manager m => m.label
  | .tenant t => t.label

def check : Service → PoolHook Clerk Ending
  | .probe p => .ofHook p.checkHook
  | _ => return .ok

def verify (s : Service) (scope : Scope) : PoolHook Clerk (Service × Scope × Ending) :=
  match s with
  | .probe p => do
    let (p, scope, ending) ← PoolHook.ofHook (p.verifyHook scope)
    return (.probe p, scope, ending)
  | s => return (s, scope, .ok)

def build (s : Service) (scope : Scope) : PoolHook Clerk (Service × Scope × Ending) :=
  match s with
  | .probe p => do
    let (p, scope, ending) ← PoolHook.ofHook (p.buildHook scope)
    return (.probe p, scope, ending)
  | .unfinished label => return (.unfinished label, scope, .failed .notImplemented)
  | .manager m => do
    let (m, scope, ending) ← m.buildHook scope
    return (.manager m, scope, ending)
  | .tenant t => do
    let (t, scope, ending) ← PoolHook.ofHook (t.buildHook scope)
    return (.tenant t, scope, ending)

def destroy (s : Service) : PoolHook Clerk (Service × Ending) :=
  match s with
  | .probe p => do
    let (p, ending) ← PoolHook.ofHook p.destroyHook
    return (.probe p, ending)
  | .unfinished label => return (.unfinished label, .ok)
  | .manager m => do
    let (m, ending) ← m.destroyHook
    return (.manager m, ending)
  | .tenant t => do
    let (t, ending) ← PoolHook.ofHook t.destroyHook
    return (.tenant t, ending)

def behaviour : Behaviour (PoolHook Clerk) Service := ⟨typeName, check, verify, build, destroy⟩

def pooled : Service → Option (List (String × CellId))
  | .manager m => some m.store.cells
  | _ => none

/-- The place of the credential; one that nobody uses, for a component that is no tenant. -/
def slot : Service → Slot
  | .tenant t => t.slot
  | s => .empty s.label .zero

def withSlot (s : Service) (slot : Slot) : Service :=
  match s with
  | .tenant t => .tenant { t with slot }
  | s => s

def policy : Service → Rotation.Policy
  | .tenant t => t.policy
  | _ => default

def storeStatus : Service → Hook (Service × Option Status)
  | .tenant t => do
    let (t, status) ← t.storeStatusHook
    return (.tenant t, some status)
  | s => return (s, some .available)

def rotate : Service → Hook (Service × Rotation.Attempt)
  | .tenant t => do
    let (t, attempt) ← t.rotateHook
    return (.tenant t, attempt)
  | s => return (s, .failed "no credential")

end Service

/-- The kit of rehearsed components. -/
def kit : Kit where
  Service := Service
  Mini := Clerk
  service := Service.behaviour
  mini := Clerk.behaviour
  pooled := Service.pooled
  slot := Service.slot
  withSlot := Service.withSlot
  policy := Service.policy
  storeStatus := Service.storeStatus
  rotate := Service.rotate

end Steward.Rehearsal
