import Steward.Proofs.Fleet.Admission
/-!
Whether components are ready when a factory asks for them. After a start all members are through
their first build pass. But a late component takes its name before its first build pass, and from
then on others may depend on it; so a factory may find a dependency that is not built yet, as long
as the registration of that dependency goes on.
-/
namespace Steward

open Steward.Action

variable {K : Kit}

namespace Cell

variable {w : World K} {id : CellId}

/-- Terms for a task that leaves the fleet as it is, among others that do so too; no cell goes away
or loses its report. -/
def retaining : Terms K where
  others := World.Retains
  own := World.Retains
  may _ _ := True
  mayExit := True
  others_refl := .refl
  others_trans := .trans
  own_of_others h := h
  own_trans := .trans

theorem meets_of_mild {α : Type} {may : Invocation → Prop} {p : Action K α} (h : Mild may p) :
    Meets retaining p (fun _ _ _ => True) w := by
  induction h generalizing w with
  | done a => exact fun _ _ => trivial
  | update h _ ih => exact fun v _ => ⟨h v, ih v⟩
  | invoke _ _ ih => exact fun v _ => ⟨trivial, ih v⟩
  | acquire _ ih => exact ih
  | release _ ih => exact ih
  | rest _ ih => exact ih
  | restUnlessCancelled _ ih => exact fun isCancelled => ih isCancelled
  | exit => trivial

theorem reported_build (token : Token) (hcell : (w.face? id).isSome = true) :
    Meets retaining (build id token) (fun _ _ v => v.Reported id) w := by
  have hpass (scope : Scope) : Mild (K := K) (fun _ => True) (pass id scope) :=
    mild_pass (fun _ _ => trivial) trivial
  refine Meets.get fun a ha => Meets.acquire (Meets.get fun b hb => ?_)
  refine Meets.getModify fun c hc => ⟨retains_beginBuild c id, ?_⟩
  refine Meets.seq (meets_of_mild (hpass _)) fun _ ⟨asked, ending⟩ d hd _ => ?_
  refine Meets.get fun e he => Meets.modify fun f hf => ⟨retains_endBuild _ _ _ _ f, ?_⟩
  have hgrows : w.Retains f := ha.trans (hb.trans (hc.trans
    ((retains_beginBuild c id).trans (hd.trans (he.trans hf)))))
  refine Meets.release (Meets.modify fun i hi => ⟨retains_armAfter _ i, ?_⟩)
  have hreported (report : Report) (v : World K) (hv : World.Retains (armAfter id report i) v) :
      v.Reported id :=
    hv.reported _ ((retains_armAfter report i).reported _ (hi.reported _
      (reported_endBuild _ _ _ _ (hgrows.cells _ hcell))))
  exact Meets.ite (fun _ => Meets.pure (hreported _)) fun _ => Meets.pure (hreported _)

end Cell

namespace Fleet

variable {v w : World K}

def AllReported (w : World K) : Prop := ∀ m ∈ w.roster.members, w.Reported m.cell

theorem AllReported.keep (h : AllReported v) (hw : v.KeepsReports w)
    (hmembers : w.roster.members = v.roster.members) : AllReported w := by
  intro m hm
  rw [hmembers] at hm
  exact hw.reported _ (h m hm)

theorem AllReported.retains (h : AllReported v) (hw : v.Retains w) : AllReported w :=
  h.keep hw.toKeepsReports (by rw [hw.roster])

def launching : Terms K :=
  { Cell.retaining with
    own := World.KeepsReports
    own_of_others := fun h => h.toKeepsReports
    own_trans := .trans }

theorem launching_of_retaining {α : Type} {p : Action K α} {post : Calls K → α → World K → Prop}
    (h : Meets Cell.retaining p post w) :
    Meets launching p (fun calls a v => w.Retains v ∧ post calls a v) w :=
  h.own.relax (fun _ _ h => h) (fun _ _ h => h.toKeepsReports) (fun _ _ h => h) fun h => h

theorem launching_of_mild {α : Type} {may : Invocation → Prop} {p : Action K α}
    (h : Cell.Mild may p) : Meets launching p (fun _ _ v => w.Retains v) w :=
  (launching_of_retaining (Cell.meets_of_mild h)).mono fun _ _ _ hv => hv.1

theorem mild_destroyMembers (names : List String) :
    Cell.Mild (K := K) (fun _ => True) (destroyMembers names) := by
  induction names with
  | nil => exact .pure ()
  | cons name names ih =>
    refine (Cell.mild_get _).bind fun m => ?_
    cases m with
    | none => exact ih
    | some m =>
      have htear : Cell.Mild (K := K) (fun _ => True) (Cell.tear m.cell) :=
        Cell.mild_tear (fun _ _ => trivial) trivial
      exact (Cell.mild_destroyWith htear).bind fun _ => ih

theorem mild_shutdown : Cell.Mild (K := K) (fun _ => True) shutdown :=
  (Cell.mild_get _).bind fun _ => (mild_destroyMembers _).bind fun _ =>
    (Cell.mild_report _).bind fun _ => .pure _

/-- A component that is made is there, and all other members are through their first build pass, if
all were before. -/
theorem launching_make (step : Registry.Step (Factory K)) (h : AllReported w) :
    Meets launching (make step) (fun _ r v => ∀ cell, r = .ok cell →
      (v.face? cell).isSome = true ∧
        ∀ m ∈ v.roster.members, m.cell = cell ∨ v.Reported m.cell) w := by
  refine Meets.invoke fun a ha => ⟨trivial, Meets.modify fun b hb => ?_⟩
  have hnotes := World.retains_notes (step.factory ⟨step.name, a⟩).notes b
  refine ⟨hnotes.toKeepsReports, ?_⟩
  split
  · exact Meets.pure fun _ _ _ hok => by cases hok
  · rename_i product _
    refine Meets.getModify fun c hc => ?_
    have hall : AllReported c := (((h.retains ha).retains hb).retains hnotes).retains hc
    by_cases htaken : (c.roster.member? step.name).isSome = true
    · simp only [htaken, if_true]
      exact ⟨.refl c, Meets.pure fun _ _ _ hok => by cases hok⟩
    · simp only [htaken, Bool.false_eq_true, if_false]
      have hgrows := grows_join step product c
      refine ⟨hgrows.toKeepsReports, Meets.pure fun e he cell hcell => ?_⟩
      obtain rfl : c.cells.size = cell := Except.ok.inj hcell
      obtain ⟨d, hd, -⟩ := houses_join step product c
      refine ⟨he.cells _ (by rw [World.face?, hd]; rfl), fun m hm => ?_⟩
      rw [he.roster] at hm
      rcases List.mem_append.1 hm with hm | hm
      · exact .inr (he.reported _ (hgrows.reported _ (hall m hm)))
      · exact .inl (by rw [List.mem_singleton.1 hm])

/-- A step that is booted leaves all members through their first build pass, if they were before. -/
theorem launching_boot (step : Registry.Step (Factory K)) (h : AllReported w) :
    Meets launching (boot step) (fun _ r v => r.toBool = true → AllReported v) w := by
  refine Meets.seq (launching_make step h) fun _ r a _ hr => ?_
  cases r with
  | error fault => exact Meets.pure fun _ _ hok => by cases hok
  | ok cell =>
    obtain ⟨hcell, hmembers⟩ := hr cell rfl
    refine Meets.seq (launching_of_retaining (Cell.reported_build .boot hcell))
      fun _ r b _ hb => ?_
    obtain ⟨hretains, hreported⟩ := hb
    have hall : AllReported b := by
      intro m hm
      rw [hretains.roster] at hm
      rcases hmembers m hm with rfl | hm
      · exact hreported
      · exact hretains.reported _ hm
    cases r with
    | error fault => exact Meets.pure fun _ _ hok => by cases hok
    | ok report =>
      refine Meets.modify fun c hc => ⟨(grows_recount report c).toKeepsReports, ?_⟩
      refine Meets.pure fun d hd _ => ?_
      exact ((hall.retains hc).keep (grows_recount report c).toKeepsReports rfl).retains hd

theorem launching_bootAll (steps : List (Registry.Step (Factory K))) (h : AllReported w) :
    Meets launching (bootAll steps) (fun _ r v => r.toBool = true → AllReported v) w := by
  induction steps generalizing w with
  | nil => exact Meets.pure fun _ hv _ => h.retains hv
  | cons step steps ih =>
    refine Meets.seq (launching_boot step h) fun _ r v _ hr => ?_
    cases r with
    | error fault => exact Meets.pure fun _ _ hok => by cases hok
    | ok report => exact ih (hr rfl)

theorem launching_start (registry : Registry K) (config : Config) :
    Meets launching (start registry config) (fun _ r v => r = .ok () → AllReported v) w := by
  simp only [start]
  refine Meets.modify fun a _ => ⟨(World.retains_notes _ a).toKeepsReports, ?_⟩
  split
  · exact Meets.pure fun _ _ hok => by cases hok
  · rename_i p _
    refine Meets.modify fun b _ => ⟨(World.retains_reports _ b).toKeepsReports, ?_⟩
    refine Meets.modify fun c _ => ⟨World.keepsReports_of_eq rfl, ?_⟩
    have hfound : AllReported (found config p c) := by simp [AllReported, found]
    refine Meets.report fun d hd => ⟨(World.retains_report d _).toKeepsReports, ?_⟩
    refine Meets.get fun e he => ?_
    have hall : AllReported e :=
      ((hfound.retains hd).retains (World.retains_report d _)).retains he
    refine Meets.seq (launching_bootAll p.steps hall) fun _ r f _ hr => ?_
    cases r with
    | ok _ =>
      refine Meets.modify fun i hi => ⟨(World.retains_report i _).toKeepsReports, ?_⟩
      exact Meets.pure fun j hj _ =>
        (((hr rfl).retains hi).retains (World.retains_report i _)).retains hj
    | error fault =>
      have habort : Cell.Mild (K := K) (fun _ => True) (onAbort fault) := mild_onAbort fault
      refine Meets.seq (launching_of_mild habort) fun _ _ i _ _ => ?_
      refine Meets.report fun j _ => ⟨(World.retains_report j _).toKeepsReports, ?_⟩
      have hdiscard : (discard shutdown : Action K Unit) = shutdown >>= fun _ => pure () := rfl
      rw [hdiscard, bind_assoc]
      refine Meets.seq (launching_of_mild mild_shutdown) fun _ _ _ _ _ => ?_
      exact Meets.pure fun _ _ hok => by cases hok

/-- A fleet right after a start that succeeded, during which no cell went away or lost a report. -/
def Launched (registry : Registry K) (config : Config) (w : World K) : Prop :=
  ∃ v calls, Runs (fun v w => World.Keeps (fun _ => True) v w ∧ v.KeepsReports w)
    (start registry config) v calls (.done (.ok ())) w

variable {registry : Registry K} {config : Config}

theorem Launched.founded (h : Launched registry config w) : Founded registry config w := by
  obtain ⟨v, calls, run⟩ := h
  exact ⟨v, calls, run.weaken fun _ _ h => h.1⟩

theorem Launched.allReported (h : Launched registry config w) : AllReported w := by
  obtain ⟨v, calls, run⟩ := h
  have run' : Runs World.Retains (start registry config) v calls (.done (.ok ())) w :=
    run.weaken fun _ _ h => ⟨h.2, h.1.roster, h.1.config⟩
  exact run'.ends (launching_start registry config) rfl

/-- Whenever a registration is about to call the factory of its component, each component that this
one depends on is a member, and has had its first build pass unless its own registration is still
going on. -/
theorem factory_finds_dependencies {ds : List (Registry.Descriptor (Factory K))}
    {crew : TaskId → Registry.Descriptor (Factory K)} {g g' : Throng K (Except Fault Report)}
    {t : TaskId} {name : String} (hregistry : Registry.empty.registerAll ds = .ok registry)
    (hlaunched : Launched registry config g.world) (harrivals : Arrivals crew g)
    (run : g.Becomes World.Retains g')
    (hcall : Throng.called? (g'.tasks t) = some (.factory name)) :
    ∀ x ∈ ((crew t).effective g'.world.config.context).dependencies,
      ∃ m, g'.world.roster.member? (g'.world.roster.dealias x) = some m ∧
        (g'.world.Reported m.cell ∨
          ∃ t' ≠ t, (crew t').name = m.name ∧ ∀ r, g'.tasks t' ≠ .done r) := by
  have hr : registry.names.Nodup := Registry.nodup_names_registerAll hregistry List.nodup_nil
  obtain ⟨p, hp, board⟩ := hlaunched.founded.boarded hr
  obtain ⟨stages, hgov, hsettled⟩ := harrivals.settled (board.ordered hp) run
  have hpermits : Permits (stages t) (.factory name) g'.world := hgov.invokes_of_called? hcall
  have hregisters := hsettled.registers t
  generalize hs : stages t = s at hpermits hregisters
  cases hpermits with
  | mini isOfMini => cases isOfMini
  | factory running =>
    obtain rfl := hregisters
    intro x hx
    obtain ⟨m, hm⟩ := Option.isSome_iff_exists.1 (running x hx)
    refine ⟨m, hm, ?_⟩
    rcases hsettled.adder m (Roster.mem_of_member? hm).1 with hold | ⟨t', ht'⟩
    · exact .inl (hsettled.grows.reported _ (hlaunched.allReported m hold))
    have hname := (hsettled.added t' m ht').2.2
    rcases hprogress : (stages t').progress with _ | _ | m' | m'
    · simp [Holds, hprogress, Progress.member?] at ht'
    · simp [Holds, hprogress, Progress.member?] at ht'
    · refine .inr ⟨t', ?_, hname.symm, fun r hdone => ?_⟩
      · rintro rfl
        rw [hs] at hprogress
        cases hprogress
      · have hends := ends_of_done hgov hdone
        generalize stages t' = s' at hends hprogress
        cases hends <;> cases hprogress
    · obtain rfl : m' = m := by simpa [Holds, hprogress, Progress.member?] using ht'
      exact .inl (hsettled.reported t' m' hprogress)

def pageAndInterface : TaskId → Registry.Descriptor (Factory Rehearsal.kit)
  | 0 => idle "web" []
  | _ => idle "api" ["web"]

def pageComing : Throng Rehearsal.kit (Except Fault Report) where
  world := after (start cacheAndStore {}) {}
  tasks t := register (pageAndInterface t)

/-- The registration of the page is over, and then that of the interface goes on as far as its
factory. -/
def pageThrough : Throng Rehearsal.kit (Except Fault Report) :=
  pageComing.following (List.replicate 18 0 ++ List.replicate 3 1)

/-- The page has become a member, but its first build pass has not begun, and the registration of
the interface goes on as far as its factory. -/
def pageTaken : Throng Rehearsal.kit (Except Fault Report) :=
  pageComing.following (List.replicate 6 0 ++ List.replicate 3 1)

theorem launched_after {w : World K}
    (h : (alone (start registry config) w).map (fun run => run.2.1) = some (.ok ())) :
    Launched registry config (after (start registry config) w) := by
  obtain ⟨⟨calls, r, v⟩, hrun, rfl⟩ := Option.map_eq_some_iff.1 h
  rw [after, hrun]
  exact ⟨w, calls, runs_alone hrun⟩

theorem launched_pageComing : Launched cacheAndStore {} pageComing.world := by
  have hworld : pageComing.world = after (start cacheAndStore {}) {} := by
    rw [pageComing]
  rw [hworld]
  exact launched_after rfl

theorem arrivals_pageComing : Arrivals pageAndInterface pageComing :=
  ⟨fun _ => rfl, fun _ => rfl, rfl⟩

theorem factory_finds_dependencies_page :
    Throng.called? (pageThrough.tasks 1) = some (.factory "api") ∧
      ∃ m, pageThrough.world.roster.member? "web" = some m ∧
        pageThrough.world.Reported m.cell := by
  have hcall : Throng.called? (pageThrough.tasks 1) = some (.factory "api") := by decide +kernel
  have hrun : pageComing.Becomes World.Retains pageThrough := Throng.becomes_following _ _
  have h := factory_finds_dependencies registerAll_cacheAndStore launched_pageComing
    arrivals_pageComing hrun hcall
  have hweb : pageThrough.world.roster.dealias "web" = "web" := by decide +kernel
  have hneeds : "web" ∈
      ((pageAndInterface 1).effective pageThrough.world.config.context).dependencies := by
    decide +kernel
  obtain ⟨m, hm, hready⟩ := h "web" hneeds
  rw [hweb] at hm
  refine ⟨hcall, m, hm, ?_⟩
  rcases hready with hreported | ⟨t, ht, hname, hgoing⟩
  · exact hreported
  · have hpage : m.name = "web" := (Roster.mem_of_member? hm).2
    rw [hpage] at hname
    match t with
    | 0 =>
      have hover : (Throng.answer? (pageThrough.tasks 0)).isSome = true := by decide +kernel
      obtain ⟨r, hr⟩ := Option.isSome_iff_exists.1 hover
      exact absurd (Throng.eq_done_of_answer? hr) (hgoing r)
    | t + 1 => simp [pageAndInterface, idle, Registry.Blueprint.concrete] at hname

theorem factory_may_find_dependency_unbuilt :
    ¬ ∀ (crew : TaskId → Registry.Descriptor (Factory Rehearsal.kit))
      (g g' : Throng Rehearsal.kit (Except Fault Report)) (t : TaskId) (name : String),
      Launched cacheAndStore {} g.world → Arrivals crew g → g.Becomes World.Retains g' →
      Throng.called? (g'.tasks t) = some (.factory name) →
      ∀ x ∈ ((crew t).effective g'.world.config.context).dependencies,
        ∃ m, g'.world.roster.member? (g'.world.roster.dealias x) = some m ∧
          g'.world.Reported m.cell := by
  intro hall
  have hcall : Throng.called? (pageTaken.tasks 1) = some (.factory "api") := by decide +kernel
  have hneeds : "web" ∈
      ((pageAndInterface 1).effective pageTaken.world.config.context).dependencies := by
    decide +kernel
  obtain ⟨m, hm, face, hface, hreport⟩ := hall pageAndInterface pageComing pageTaken 1 "api"
    launched_pageComing arrivals_pageComing (Throng.becomes_following _ pageComing) hcall "web"
    hneeds
  have hunbuilt : ((pageTaken.world.roster.member? (pageTaken.world.roster.dealias "web")).bind
      fun m => (pageTaken.world.face? m.cell).bind fun face => face.standing.lastReport) =
        none := by decide +kernel
  rw [hm, Option.bind_some, hface, Option.bind_some] at hunbuilt
  rw [hunbuilt] at hreport
  cases hreport

end Fleet

end Steward
