import Steward.Proofs.Cell.Reports
import Steward.Proofs.Fleet.Roster
import Steward.Proofs.Throng.Regime
/-!
How far the registration of a late component has come, and what it may do there. A registration
takes its name at one moment: when the component that was made joins the fleet. Before that it may
call its factory, and after that it runs the first build pass of its own cell.
-/
namespace Steward

open Steward.Action

variable {K : Kit}

namespace Fleet

variable {u v w : World K} {d : Registry.Descriptor (Factory K)}

structure Grows (v w : World K) : Prop extends World.KeepsReports v w where
  config : w.config = v.config
  aliases : w.roster.aliases = v.roster.aliases
  members : v.roster.members <+: w.roster.members
  order : v.roster.order <+: w.roster.order
  skipped : v.roster.skipped <+: w.roster.skipped

theorem grows_of_retains (h : v.Retains w) : Grows v w where
  toKeepsReports := h.toKeepsReports
  config := h.config
  aliases := by rw [h.roster]
  members := by rw [h.roster]
  order := by rw [h.roster]
  skipped := by rw [h.roster]

theorem Grows.refl (w : World K) : Grows w w := grows_of_retains (.refl w)

theorem Grows.trans (huv : Grows u v) (hvw : Grows v w) : Grows u w where
  toKeepsReports := huv.toKeepsReports.trans hvw.toKeepsReports
  config := hvw.config.trans huv.config
  aliases := hvw.aliases.trans huv.aliases
  members := huv.members.trans hvw.members
  order := huv.order.trans hvw.order
  skipped := huv.skipped.trans hvw.skipped

theorem Grows.isMember {name : String} (h : Grows v w)
    (hname : (v.roster.member? name).isSome = true) : (w.roster.member? name).isSome = true := by
  rw [Roster.member?_isSome_iff] at hname ⊢
  exact (h.members.map (·.name)).subset hname

def IsTaken (r : Roster) (name : String) : Prop :=
  name ∈ r.members.map (·.name) ∨ name ∈ Registry.namesOf r.skipped

theorem Grows.isTaken {name : String} (h : Grows v w) (hname : IsTaken v.roster name) :
    IsTaken w.roster name :=
  hname.imp ((h.members.map (·.name)).subset ·) ((h.skipped.map (·.name)).subset ·)

def HasDependencies (w : World K) (d : Registry.Descriptor (Factory K)) : Prop :=
  ∀ x ∈ (d.effective w.config.context).dependencies,
    (w.roster.member? (w.roster.dealias x)).isSome = true

theorem Grows.hasDependencies (h : Grows v w) (hd : HasDependencies v d) : HasDependencies w d := by
  intro x hx
  rw [h.config] at hx
  have hdealias : w.roster.dealias x = v.roster.dealias x := by
    rw [Roster.dealias, Roster.dealias, h.aliases]
  rw [hdealias]
  exact h.isMember (hd x hx)

/-- The registration of a late component has not come to anything yet, has left the component out,
has added it as a member whose first build pass is going on, or is through with that. -/
inductive Progress where
  | outside
  | leftOut
  | inside (m : Member)
  | through (m : Member)
  deriving DecidableEq

namespace Progress

/-- The member that a registration has added. -/
def member? : Progress → Option Member
  | .inside m | .through m => some m
  | .outside | .leftOut => none

end Progress

structure Stage (K : Kit) where
  descriptor : Registry.Descriptor (Factory K)
  progress : Progress

inductive Moves : Stage K → World K → Stage K → World K → Prop
  | stay {s : Stage K} {v w : World K} (retains : v.Retains w) : Moves s v s w
  | skip {d : Registry.Descriptor (Factory K)} {v : World K} (reason : String) :
      Moves ⟨d, .outside⟩ v ⟨d, .leftOut⟩ (skipLate d.name reason v)
  | join {d : Registry.Descriptor (Factory K)} {v : World K} {step : Registry.Step (Factory K)}
      (product : Product K) (name : step.name = d.name) (free : v.roster.member? d.name = none) :
      Moves ⟨d, .outside⟩ v
        ⟨d, .inside ⟨step.name, v.cells.size, step.dependencies, step.links, step.isManager⟩⟩
        (Fleet.join step product v)
  | pass {d : Registry.Descriptor (Factory K)} {m : Member} {v w : World K}
      (retains : v.Retains w) (reported : w.Reported m.cell) :
      Moves ⟨d, .inside m⟩ v ⟨d, .through m⟩ w
  | recount {d : Registry.Descriptor (Factory K)} {m : Member} {v : World K} (report : Report) :
      Moves ⟨d, .through m⟩ v ⟨d, .through m⟩
        { v with roster := { v.roster with bootReports := v.roster.bootReports ++ [report] } }

theorem grows_skipLate (name reason : String) (w : World K) :
    Grows w (skipLate name reason w) where
  config := rfl
  aliases := rfl
  members := List.prefix_refl _
  order := List.prefix_refl _
  skipped := List.prefix_append _ _
  toKeepsReports := World.keepsReports_of_eq rfl

theorem grows_join (step : Registry.Step (Factory K)) (product : Product K) (w : World K) :
    Grows w (Fleet.join step product w) where
  config := rfl
  aliases := rfl
  members := List.prefix_append _ _
  order := List.prefix_append _ _
  skipped := List.prefix_refl _
  toKeepsReports := (World.retains_addCell w _).toKeepsReports.trans
    (World.keepsReports_of_eq rfl)

theorem grows_recount (report : Report) (w : World K) :
    Grows w
      { w with roster := { w.roster with bootReports := w.roster.bootReports ++ [report] } } where
  config := rfl
  aliases := rfl
  members := List.prefix_refl _
  order := List.prefix_refl _
  skipped := List.prefix_refl _
  toKeepsReports := World.keepsReports_of_eq rfl

theorem Moves.grows {s s' : Stage K} (h : Moves s v s' w) : Grows v w := by
  cases h with
  | stay retains => exact grows_of_retains retains
  | skip reason => exact grows_skipLate _ reason v
  | join product _ _ => exact grows_join _ product v
  | pass retains _ => exact grows_of_retains retains
  | recount report => exact grows_recount report v

/-- What a registration may call: its factory when all that it depends on are members, and later the
first build pass of its own member, with what belongs to it. -/
inductive Permits : Stage K → Invocation → World K → Prop
  | factory {d : Registry.Descriptor (Factory K)} {w : World K}
      (running : HasDependencies w d) :
      Permits ⟨d, .outside⟩ (.factory d.name) w
  | build {d : Registry.Descriptor (Factory K)} {m : Member} {w : World K} :
      Permits ⟨d, .inside m⟩ (.build m.cell .boot) w
  | mini {d : Registry.Descriptor (Factory K)} {m : Member} {what : Invocation} {w : World K}
      (isOfMini : what.isOfMini = true) : Permits ⟨d, .inside m⟩ what w

/-- The rules for registrations among others that let the fleet grow at most. -/
def registering : Regime K (World K) (Stage K) where
  world := id
  later := Grows
  changes := Moves
  invokes := Permits
  takes _ _ _ := True
  gives _ _ _ := True
  take stage _ := stage
  give stage _ := stage
  later_refl := .refl
  later_trans := .trans
  later_of_changes := Moves.grows
  changes_refl _ w := .stay (.refl w)

@[simp] theorem world_registering (w : World K) : registering.world w = w := rfl

def MayFail (d : Registry.Descriptor (Factory K)) (fault : Fault) : Prop :=
  ∃ ctx factory isManager, (d.effective ctx).kind = .concrete factory isManager ∧
    ∃ r, (factory r).product = .error fault

/-- How a registration ends: with a fault if it has not added a member, and otherwise with a report
or since the first build pass aborts. -/
inductive Ends : Stage K → Except Fault Report → World K → Prop
  | outside {d : Registry.Descriptor (Factory K)} {w : World K} {fault : Fault}
      (duplicate : fault = .duplicateComponent d.name → IsTaken w.roster d.name ∨
        MayFail d fault) :
      Ends ⟨d, .outside⟩ (.error fault) w
  | leftOut {d : Registry.Descriptor (Factory K)} {w : World K} (reason : String) :
      Ends ⟨d, .leftOut⟩ (.error (.componentSkipped d.name reason)) w
  | booted {d : Registry.Descriptor (Factory K)} {m : Member} {w : World K} (report : Report) :
      Ends ⟨d, .through m⟩ (.ok report) w
  | aborted {d : Registry.Descriptor (Factory K)} {m : Member} {w : World K}
      (name reason : String) :
      Ends ⟨d, .through m⟩ (.error (.buildAborted name reason)) w

theorem Ends.later {s : Stage K} {r : Except Fault Report} (h : Ends s r v) (hw : Grows v w) :
    Ends s r w := by
  cases h with
  | outside duplicate => exact .outside fun hfault => (duplicate hfault).imp_left hw.isTaken
  | leftOut reason => exact .leftOut reason
  | booted report => exact .booted report
  | aborted name reason => exact .aborted name reason

inductive Refusal (d : Registry.Descriptor (Factory K)) (ctx : Context) (r : Roster) :
    Fault → Prop
  | itself (refers : d.check = .error (.selfReference d.name)) :
      Refusal d ctx r (.selfReference d.name)
  | duplicate (taken : IsTaken r d.name) : Refusal d ctx r (.duplicateComponent d.name)
  | abstract {resolver : Registry.Question String}
      (kind : (d.effective ctx).kind = .abstract resolver) :
      Refusal d ctx r (.configuration
        s!"abstract component '{d.name}' cannot be registered after start" none)
  | dependency {x : String} (declared : x ∈ (d.effective ctx).dependencies)
      (missing : r.member? (r.dealias x) = none) :
      Refusal d ctx r (.unresolvedDependency d.name x)
  | link {l : Link} (declared : l ∈ (d.effective ctx).links)
      (missing : r.member? (r.dealias l.target) = none) :
      Refusal d ctx r (.unresolvedDependency d.name (r.dealias l.target))

inductive Omission (d : Registry.Descriptor (Factory K)) (ctx : Context) (r : Roster) :
    String → Prop
  | condition (fails : (d.effective ctx).condition.holds ctx = false) :
      Omission d ctx r Registry.conditionIsFalse
  | dependency {x : String} {s : Registry.Skipped} (declared : x ∈ (d.effective ctx).dependencies)
      (skipped : r.skipped? (r.dealias x) = some s) :
      Omission d ctx r (Registry.dependsOnSkipped s.name)

inductive Receives (d : Registry.Descriptor (Factory K)) (ctx : Context) (r : Roster) :
    Reception K → Prop
  | refused {fault : Fault} (why : Refusal d ctx r fault) : Receives d ctx r (.refused fault)
  | skipped {reason : String} (passes : d.check = .ok ()) (free : ¬ IsTaken r d.name)
      (why : Omission d ctx r reason) : Receives d ctx r (.skipped reason)
  | welcome {step : Step K} (name : step.name = d.name)
      (factory : ∃ isManager, (d.effective ctx).kind = .concrete step.factory isManager)
      (running : ∀ x ∈ (d.effective ctx).dependencies,
        (r.member? (r.dealias x)).isSome = true) : Receives d ctx r (.welcome step)

theorem running_of_lateDependencies {r : Roster} {name : String} {ds rest : List String}
    (h : lateDependencies (K := K) r name ds = .inr rest) :
    ∀ x ∈ ds, (r.member? (r.dealias x)).isSome = true := by
  induction ds generalizing rest with
  | nil => simp
  | cons d ds ih =>
    rw [lateDependencies] at h
    split at h
    · cases h
    · cases h
    · rename_i m _ hm
      split at h
      · rename_i rest' hrest
        exact List.forall_mem_cons.2 ⟨by rw [hm]; rfl, ih hrest⟩
      · rename_i hstopped
        exact absurd h (hstopped _)

theorem receives_lateDependencies {r : Roster} {ctx : Context} {ds : List String}
    {reception : Reception K} (hcheck : d.check = .ok ()) (hfree : ¬ IsTaken r d.name)
    (hds : ds ⊆ (d.effective ctx).dependencies)
    (hlate : lateDependencies r d.name ds = .inl reception) : Receives d ctx r reception := by
  induction ds with
  | nil => cases hlate
  | cons x ds ih =>
    obtain ⟨hx, hds⟩ := List.cons_subset.1 hds
    rw [lateDependencies] at hlate
    split at hlate
    · rename_i s _ hskipped
      obtain rfl := Sum.inl.inj hlate
      exact .skipped hcheck hfree (.dependency hx hskipped)
    · rename_i _ hmember
      obtain rfl := Sum.inl.inj hlate
      exact .refused (.dependency hx hmember)
    · split at hlate
      · cases hlate
      · exact ih hds hlate

theorem refusal_lateLinks {r : Roster} {ctx : Context} {ls : List Link} {fault : Fault}
    (hls : ls ⊆ (d.effective ctx).links) (hlate : lateLinks r d.name ls = .error fault) :
    Refusal d ctx r fault := by
  induction ls with
  | nil => cases hlate
  | cons l ls ih =>
    obtain ⟨hl, hls⟩ := List.cons_subset.1 hls
    simp only [lateLinks] at hlate
    split at hlate
    · rename_i hmissing
      obtain rfl := Except.error.inj hlate
      exact .link hl (by simpa using hmissing)
    · rcases hrest : lateLinks r d.name ls with fault' | rest
      · rw [hrest] at hlate
        obtain rfl : fault' = fault := Except.error.inj hlate
        exact ih hls hrest
      · rw [hrest] at hlate
        cases hlate

theorem check_eq_error {d : Registry.Descriptor (Factory K)} {fault : Fault}
    (h : d.check = .error fault) : fault = .selfReference d.name := by
  unfold Registry.Descriptor.check at h
  split at h
  · exact (Except.error.inj h).symm
  · split at h
    · split at h
      · exact (Except.error.inj h).symm
      · cases h
    · cases h

theorem any_isSome_iff_isTaken {r : Roster} {name : String} :
    ((r.member? name).isSome || (r.skipped? name).isSome) = true ↔ IsTaken r name := by
  rw [Bool.or_eq_true, Roster.member?_isSome_iff, Option.isSome_iff_ne_none, ne_eq,
    Roster.skipped?_isNone_iff, not_not]
  rfl

theorem receives_receive (d : Registry.Descriptor (Factory K)) (w : World K) :
    Receives d w.config.context w.roster (receive w d).2 := by
  rcases hcheck : d.check with fault | ⟨⟩
  · obtain rfl := check_eq_error hcheck
    simp only [receive, hcheck]
    exact .refused (.itself hcheck)
  · simp only [receive, hcheck]
    split
    · rename_i htaken
      exact .refused (.duplicate (any_isSome_iff_isTaken.1 htaken))
    rename_i hfree
    rw [any_isSome_iff_isTaken] at hfree
    split
    · exact .refused (.abstract ‹_›)
    rename_i factory isManager hkind
    split
    · exact receives_lateDependencies hcheck hfree (List.Subset.refl _) ‹_›
    rename_i rest hlate
    split
    · rename_i hfails
      exact .skipped hcheck hfree (.condition (by simpa using hfails))
    split
    · exact .refused (refusal_lateLinks (List.Subset.refl _) ‹_›)
    · exact .welcome rfl ⟨isManager, hkind⟩ (running_of_lateDependencies hlate)

theorem isTaken_of_receive {notes : List String}
    (h : receive w d = (notes, .refused (.duplicateComponent d.name))) :
    IsTaken w.roster d.name := by
  have hreceives := receives_receive d w
  rw [h] at hreceives
  cases hreceives with
  | refused why =>
    cases why with
    | duplicate taken => exact taken

/-- A late component that is welcome is made by its own factory, and its step depends on what the
component is declared to depend on. -/
theorem declared_of_receive {notes : List String} {step : Registry.Step (Factory K)}
    (h : receive w d = (notes, .welcome step)) :
    (∃ isManager, (d.effective w.config.context).kind = .concrete step.factory isManager) ∧
      HasDependencies w d := by
  have hreceives := receives_receive d w
  rw [h] at hreceives
  cases hreceives with
  | welcome _ factory running => exact ⟨factory, running⟩

theorem mild_onAbort {may : Invocation → Prop} (fault : Fault) :
    Cell.Mild (K := K) may (onAbort fault) := by
  cases fault with
  | buildAborted name reason =>
    refine (Cell.mild_get _).bind fun policy => ?_
    cases policy with
    | exit => exact (Cell.mild_report _).bind fun _ => .exit
    | propagate => exact Cell.mild_report _
  | _ => exact .pure ()

section Follows

variable {α : Type} {p : Action K α} {s : Stage K}

theorem follows_of_mild {may : Invocation → Prop} (h : Cell.Mild may p)
    (hmay : ∀ what v, may what → Permits s what v) :
    registering.Follows p (fun s' _ _ => s' = s) s w := by
  induction h generalizing w with
  | done a => exact fun _ _ => rfl
  | update h _ ih => exact fun v _ => ⟨s, _, rfl, .stay (h v), ih v⟩
  | invoke h _ ih => exact fun v _ => ⟨hmay _ v h, ih v⟩
  | acquire _ ih => exact fun _ _ => ⟨trivial, ih⟩
  | release _ ih => exact fun _ _ => ⟨trivial, ih⟩
  | rest _ ih => exact fun _ _ => ih
  | restUnlessCancelled _ ih => exact fun _ _ isCancelled => ih isCancelled
  | exit => trivial

theorem follows_build {m : Member} (hcell : (w.face? m.cell).isSome = true) :
    registering.Follows (Cell.build m.cell .boot)
      (fun s r _ => s = ⟨d, .through m⟩ ∧
        ∀ fault, r = .error fault → ∃ name reason, fault = .buildAborted name reason)
      ⟨d, .inside m⟩ w := by
  refine .get fun a ha => .acquire fun b hb => ⟨trivial, .get fun c hc => ?_⟩
  have hc' : Grows w c := ha.trans (hb.trans hc)
  refine .getModify fun x hx => ⟨_, _, rfl, .stay (Cell.retains_beginBuild x m.cell), ?_⟩
  have hpass (name : String) :
      Cell.Mild (K := K) (fun what => what = .build m.cell .boot ∨ what.isOfMini = true)
        (Cell.pass m.cell { component := name, token := .boot }) :=
    Cell.mild_pass (fun _ => .inr) (.inl rfl)
  refine .seq (follows_of_mild (hpass _) ?_) fun s ⟨asked, ending⟩ y hy hs => ?_
  · rintro what v (rfl | hmini)
    · exact .build
    · exact .mini hmini
  subst s
  refine .get fun z hz => .modify fun e he => ⟨⟨d, .through m⟩, _, rfl, ?_, ?_⟩
  · have hgrows : Grows w e := hc'.trans (hx.trans
      ((grows_of_retains (Cell.retains_beginBuild x m.cell)).trans (hy.trans (hz.trans he))))
    exact .pass (Cell.retains_endBuild _ _ _ _ e)
      (Cell.reported_endBuild _ _ _ _ (hgrows.cells _ hcell))
  · refine .release fun f _ => ⟨trivial, .modify fun i _ => ?_⟩
    refine ⟨_, _, rfl, .stay (Cell.retains_armAfter _ i), ?_⟩
    split
    · exact .pure fun _ _ => ⟨rfl, fun fault h => ⟨_, _, (Except.error.inj h).symm⟩⟩
    · exact .pure fun _ _ => ⟨rfl, fun fault h => by cases h⟩

theorem follows_checkAbort (r : Except Fault Report) (h : Ends s r w) :
    registering.Follows (checkAbort (K := K) r) Ends s w := by
  cases r with
  | ok report => exact .pure fun _ hv => h.later hv
  | error fault =>
    have hmild : Cell.Mild (K := K) (fun _ => False) (onAbort fault) := mild_onAbort fault
    refine .seq (follows_of_mild hmild fun _ _ => False.elim) fun s' _ v hv hs => ?_
    subst hs
    exact .pure fun u hu => (h.later hv).later hu

/-- A step that is welcome makes its component and adds it, or ends without having added it. -/
theorem follows_make {step : Registry.Step (Factory K)} (hname : step.name = d.name)
    (hkind : ∃ ctx isManager, (d.effective ctx).kind = .concrete step.factory isManager)
    (hrunning : HasDependencies w d) :
    registering.Follows (make step)
      (fun s r v => (∃ fault, r = .error fault ∧ s = ⟨d, .outside⟩ ∧ Ends s (.error fault) v) ∨
        ∃ m, r = .ok m.cell ∧ s = ⟨d, .inside m⟩ ∧ (v.face? m.cell).isSome = true)
      ⟨d, .outside⟩ w := by
  refine .invoke fun u hu => ⟨?_, .modify fun v _ =>
    ⟨_, _, rfl, .stay (World.retains_notes _ v), ?_⟩⟩
  · rw [hname]
    exact .factory (hu.hasDependencies hrunning)
  · simp only [world_registering]
    rcases hproduct : (step.factory ⟨step.name, u⟩).product with fault | product
    · obtain ⟨ctx, isManager, hkind⟩ := hkind
      refine .pure fun x _ => .inl ⟨fault, rfl, rfl, .outside fun _ => .inr ?_⟩
      exact ⟨ctx, step.factory, isManager, hkind, _, hproduct⟩
    · refine .getModify fun x _ => ?_
      by_cases htaken : (x.roster.member? step.name).isSome = true
      · refine ⟨⟨d, .outside⟩, x, by simp [htaken], .stay (.refl x), ?_⟩
        have hmember : IsTaken x.roster d.name := .inl (by
          rwa [hname, Roster.member?_isSome_iff] at htaken)
        simp only [world_registering, htaken, if_true]
        refine .pure fun y hy => .inl ⟨_, rfl, rfl, .outside fun _ => .inl (hy.isTaken hmember)⟩
      · refine ⟨_, Fleet.join step product x, by simp [htaken],
          .join product hname (by simpa [hname] using htaken), ?_⟩
        simp only [world_registering, htaken]
        refine .pure fun y hy => .inr ⟨_, rfl, rfl, hy.cells _ ?_⟩
        obtain ⟨c, hc, -⟩ := houses_join step product x
        rw [World.face?, Option.isSome_map, hc]
        rfl

theorem follows_boot {step : Registry.Step (Factory K)} (hname : step.name = d.name)
    (hkind : ∃ ctx isManager, (d.effective ctx).kind = .concrete step.factory isManager)
    (hrunning : HasDependencies w d) :
    registering.Follows (boot step) Ends ⟨d, .outside⟩ w := by
  refine .seq (follows_make hname hkind hrunning) fun s r v _ hmade => ?_
  rcases hmade with ⟨fault, rfl, rfl, hends⟩ | ⟨m, rfl, rfl, hcell⟩
  · exact .pure fun u hu => hends.later hu
  · refine .seq (follows_build hcell) fun s r x _ hbuilt => ?_
    obtain ⟨rfl, hfault⟩ := hbuilt
    rcases r with fault | report
    · obtain ⟨name, reason, rfl⟩ := hfault fault rfl
      exact .pure fun _ _ => .aborted name reason
    · refine .modify fun y _ => ⟨_, _, rfl, .recount report, ?_⟩
      exact .pure fun _ _ => .booted report

theorem follows_register (d : Registry.Descriptor (Factory K)) (w : World K) :
    registering.Follows (register d) Ends ⟨d, .outside⟩ w := by
  refine .get fun v _ => ?_
  rcases hreceive : receive v d with ⟨notes, reception⟩
  simp only [world_registering, hreceive]
  refine .modify fun x hx => ⟨_, _, rfl, .stay (World.retains_notes notes x), ?_⟩
  have hgrows : Grows v (notes.foldl World.note x) :=
    hx.trans (grows_of_retains (World.retains_notes notes x))
  cases reception with
  | refused fault =>
    refine .pure fun y hy => .outside fun hfault => .inl ?_
    exact (hgrows.trans hy).isTaken (isTaken_of_receive (hfault ▸ hreceive))
  | skipped reason =>
    refine .modify fun y _ => ⟨_, _, rfl, .skip reason, .pure fun _ _ => .leftOut reason⟩
  | welcome step =>
    refine .modify fun y hy => ⟨_, _, rfl, .stay (World.retains_report y _), ?_⟩
    obtain ⟨⟨isManager, hkind⟩, hrunning⟩ := declared_of_receive hreceive
    have hy' : Grows v (y.report (.registering d.name)) :=
      (hgrows.trans hy).trans (grows_of_retains (World.retains_report y _))
    exact .seq (follows_boot (needs_of_receive hreceive).1 ⟨_, _, hkind⟩
      (hy'.hasDependencies hrunning)) fun s r z _ hr => follows_checkAbort r hr

end Follows

end Fleet

end Steward
