import Steward.Health.Response
import Steward.Json.Lookup
import Steward.Rehearsal.Casting
import Steward.Wire.Config
import Steward.Wire.Report
/-!
Cast sheets: rehearsed components described in JSON. Whatever a sheet leaves out takes a default.
-/
namespace Steward.Rehearsal

open Json

def statusOf (s : String) : Status := (Status.ofName? s).getD default

def statusAt (j : Json) (name : String) : Status := statusOf (textAt j name)

def tokenAt (j : Json) (name : String := "token") (absent : Token := .admin) : Token :=
  ((natAt? j name).bind Token.ofNat?).getD absent

def scriptAt (j : Json) (name : String) : Option Script :=
  (textAt? j name).map .ofText

def scriptsAt (j : Json) (name : String) : List Script :=
  (textsAt j name).map .ofText

def statusAt? (j : Json) (name : String) : Option Status := (textAt? j name).map statusOf

def entityOf (j : Json) : Entity where
  id := textAt j "id"
  build := scriptAt j "build"
  destroy := scriptAt j "destroy"
  queue := scriptsAt j "queue"
  override := statusAt? j "override"
  disable := textsAt j "disable"
  card := j

def labelOf (j : Json) : String := textAt j "label" (textAt j "name")

def batchesAt (j : Json) : List (List Entity) :=
  (itemsAt j "batches").map fun batch => batch.items.map entityOf

def plainRotation : Config.Rotation :=
  { jitterRatio := .zero, bufferMinSecs := 0, bufferMaxSecs := 0 }

def policyAt (j : Json) : Rotation.Policy :=
  match j.get? "policy" with
  | some p => match Json.decode Config.Rotation.reader p.text with
    | .ok c => .ofConfig c
    | .error _ => .ofConfig plainRotation
  | none => .ofConfig plainRotation

def roleOf (j : Json) : Role :=
  let label := labelOf j
  match textAt j "type" with
  | "unfinished" => .unfinished
  | "manager" => .manager
    { label, store := .empty label, batches := batchesAt j, build := scriptAt j "build" }
  | "rotating" => .tenant
    { label
      slot := .empty label (.ofSeconds (UInt64.ofNat (natAt j "ttl_secs" 3600)))
      policy := policyAt j
      leases := scriptsAt j "leases"
      queue := scriptsAt j "queue"
      build := scriptAt j "build"
      storeStatuses := (textsAt j "upstream").map statusOf
      noCredential := boolAt j "no_credential" } (textAt? j "store")
  | _ => .probe
    { label
      check := scriptAt j "check"
      verify := scriptAt j "verify"
      build := scriptAt j "build"
      destroy := scriptAt j "destroy"
      queue := scriptsAt j "queue"
      disable := textsAt j "disable"
      enable := textsAt j "enable"
      require := textsAt j "require"
      override := statusAt? j "override"
      buildMillis := natAt j "delay_ms"
      destroyMillis := natAt j "destroy_ms" } (textsAt j "needs")
    ((itemsAt j "watch").map fun w => (textAt w "component", textAt w "method"))

def castingOf (j : Json) : Casting :=
  ⟨labelOf j, roleOf j, boolAt j "peek", textAt? j "factory_error"⟩

def circumstanceOf (j : Json) : Circumstance :=
  match textAt? j "flag" with
  | some name => .flag name
  | none => .mode (textAt j "mode")

def linkOf (j : Json) : Link where
  target := textAt j "target"
  toBuild := boolAt j "to_build" true
  toDestroy := boolAt j "to_destroy" false
  token := tokenAt j "token" .link

def blueprintOf (j : Json) : Registry.Blueprint (Factory kit) :=
  let name := textAt j "name"
  let b : Registry.Blueprint (Factory kit) :=
    if textAt j "type" == "abstract" then
      .abstract name (resolver name
        ((itemsAt j "rules").map fun r => (circumstanceOf r, textAt r "target"))
        (textAt j "target"))
    else .concrete name (castingOf j).factory
  let b := (textsAt j "deps").foldl Registry.Blueprint.dependsOn b
  let b := (itemsAt j "links").foldl (fun b l => b.link (linkOf l)) b
  let b := (textsAt j "implements").foldl Registry.Blueprint.implementing b
  let b := if boolAt j "manager" then b.manager else b
  let b := match j.get? "only_if" with
    | some (.bool value) => b.buildOnlyIf value
    | _ => b
  match j.get? "only_when" with
  | some c => b.buildOnlyWhen (predicate name (circumstanceOf c) (boolAt c "not"))
  | none => b

def descriptorOf (j : Json) : Registry.Descriptor (Factory kit) where
  toBlueprint := blueprintOf j
  standIn := (j.get? "mirror").map fun m =>
    (textAt m "mode", blueprintOf ((m.get? "alt").getD (.object [])))

def reportOf (j : Json) : Option Report := (Json.decode Report.reader j.text).toOption

def snapshotOf (j : Json) : Snapshot where
  name := textAt j "name"
  status := statusAt j "status"
  phase := (Phase.ofName? (textAt j "phase")).getD default
  built := boolAt j "built"
  destroyed := boolAt j "destroyed"
  disabledMethods := textsAt j "disabled_methods"
  lastReport := (j.get? "last_report").bind reportOf
  miniServices := natAt? j "mini_services"

def checkOf (j : Json) : Health.Check :=
  match j.get? "skipped" with
  | some s => .ofSkipped ⟨textAt s "name", textAt s "reason"⟩
  | none => .ofSnapshot (snapshotOf ((j.get? "snapshot").getD .null))

end Steward.Rehearsal
