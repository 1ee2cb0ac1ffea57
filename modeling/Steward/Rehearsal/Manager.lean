import Steward.Json.Value
import Steward.Mini.Store
import Steward.Rehearsal.Probe
/-!
A manager: a rehearsed component that fills a store of mini-services in each build pass, one
mini-service for each entity of a batch.
-/
namespace Steward.Rehearsal

structure Entity where
  id : String
  build : Option Script := none
  destroy : Option Script := none
  queue : List Script := []
  override : Option Status := none
  disable : List String := []
  /-- All that is known of the entity. -/
  card : Json := .null

/-- The mini-service of an entity, which uses up the queue of its entity. -/
structure Clerk where
  entity : Entity

namespace Clerk

def buildHook (c : Clerk) (scope : Scope) : Hook (Clerk × Scope × Ending) := do
  let e := c.entity
  Hook.note s!"mini-build:{e.id}:{scope.token.name}"
  let scope := e.disable.foldl Scope.disable scope
  let scope := match e.override with
    | some status => scope.override status
    | none => scope
  let (script, queue) := Script.next e.queue e.build
  return (⟨{ e with queue }⟩, scope, Script.endingOf e.id script)

def destroyHook (c : Clerk) : Hook (Clerk × Ending) := do
  Hook.note s!"mini-destroy:{c.entity.id}"
  return (c, Script.endingOf c.entity.id c.entity.destroy)

def behaviour : Behaviour Hook Clerk where
  typeName _ := "Clerk"
  check _ := return .ok
  verify c scope := return (c, scope, .ok)
  build := buildHook
  destroy := destroyHook

end Clerk

structure Manager where
  label : String
  store : Mini.Store Entity
  /-- The entities of the coming passes; the last batch is used again and again. -/
  batches : List (List Entity) := []
  build : Option Script := none
  counter : Option Mini.Counter := none

namespace Manager

def takeBatch : List (List Entity) → List Entity × List (List Entity)
  | [] => ([], [])
  | [last] => (last, [last])
  | first :: rest => (first, rest)

def fill (store : Mini.Store Entity) (entities : List Entity) (token : Token) :
    PoolHook Clerk (Mini.Store Entity × Mini.Counter) :=
  store.populate Entity.id Clerk.mk entities token

def buildHook (m : Manager) (scope : Scope) : PoolHook Clerk (Manager × Scope × Ending) := do
  PoolHook.ofHook (Hook.note (buildLine m.label scope))
  let (batch, batches) := takeBatch m.batches
  let (store, counter) ← fill m.store batch scope.token
  return ({ m with store, batches, counter := some counter }, scope.override counter.status,
    Script.endingOf m.label m.build)

def destroyHook (m : Manager) : PoolHook Clerk (Manager × Ending) := do
  PoolHook.ofHook (Hook.note s!"destroy:{m.label}")
  return ({ m with store := ← m.store.destroyAll }, .ok)

end Manager

end Steward.Rehearsal
