import Steward.Core.Hook
import Steward.Rehearsal.Script
/-!
A probe: a rehearsed component whose hooks write to the journal what they do and end as their
scripts say.
-/
namespace Steward.Rehearsal

structure Probe where
  /-- What the component calls itself. -/
  label : String
  check : Option Script := none
  verify : Option Script := none
  build : Option Script := none
  destroy : Option Script := none
  /-- The scripts of the first build passes. -/
  queue : List Script := []
  /-- Components that must accept calls. -/
  needs : List (String × CellId) := []
  /-- Components with the methods that are closed while these are not fully available. -/
  watch : List (CellId × String) := []
  disable : List String := []
  enable : List String := []
  /-- Methods without which there is nothing to build. -/
  require : List String := []
  override : Option Status := none
  buildMillis : Nat := 0
  destroyMillis : Nat := 0
  /-- How many build passes came as far as the build hook. -/
  builds : Nat := 0

def buildLine (label : String) (scope : Scope) : String :=
  s!"build:{label}@{scope.component}:{scope.token.name}"

namespace Probe

def checkHook (p : Probe) : Hook Ending := do
  Hook.note s!"check:{p.label}"
  return Script.endingOf p.label p.check

def unmet? : List (String × CellId) → Hook (Option (String × Status))
  | [] => return none
  | (name, cell) :: rest => do
    let status ← Hook.statusOf cell
    if status.acceptsCalls then unmet? rest else return some (name, status)

def closeWatched : List (CellId × String) → Scope → Hook Scope
  | [], scope => return scope
  | (cell, method) :: rest, scope => do
    let status ← Hook.statusOf cell
    closeWatched rest (if status.isAvailable then scope else scope.disable method)

def verifyHook (p : Probe) (scope : Scope) : Hook (Probe × Scope × Ending) := do
  Hook.note s!"verify:{p.label}"
  match ← unmet? p.needs with
  | some (name, status) =>
    return (p, scope, .failed (.failure s!"dependency '{name}' is {status.name}"))
  | none =>
    let scope ← closeWatched p.watch scope
    let scope := p.disable.foldl Scope.disable scope
    let scope := p.enable.foldl Scope.enable scope
    return (p, scope, Script.endingOf p.label p.verify)

def buildHook (p : Probe) (scope : Scope) : Hook (Probe × Scope × Ending) := do
  Hook.note (buildLine p.label scope)
  Hook.rest p.buildMillis
  let p := { p with builds := p.builds + 1 }
  let scope := match p.override with
    | some status => scope.override status
    | none => scope
  match p.require.find? scope.isDisabled with
  | some method => return (p, scope, .failed (.skip s!"{method} is disabled"))
  | none =>
    let (script, queue) := Script.next p.queue p.build
    return ({ p with queue }, scope, Script.endingOf p.label script)

def destroyHook (p : Probe) : Hook (Probe × Ending) := do
  Hook.note s!"destroy:{p.label}"
  Hook.rest p.destroyMillis
  return (p, Script.endingOf p.label p.destroy)

end Probe

end Steward.Rehearsal
