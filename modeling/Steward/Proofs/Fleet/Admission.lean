import Steward.Proofs.Fleet.Newcomers
/-!
Many registrations of late components side by side. They may be under the same name, and each of
their steps may come at any time: still at most one of them adds a member under a name.
-/
namespace Steward

open Steward.Action

variable {K : Kit}

namespace Fleet

variable {crew : TaskId → Registry.Descriptor (Factory K)} {g g' : Throng K (Except Fault Report)}
  {stages stages' : TaskId → Stage K} {u v w : World K} {log : List (TaskId × Invocation)}

/-- Each task is about to register a component. A task that never goes on is one that is not
there. -/
structure Arrivals (crew : TaskId → Registry.Descriptor (Factory K))
    (g : Throng K (Except Fault Report)) : Prop where
  tasks : ∀ t, g.tasks t = register (crew t)
  locks : ∀ cell, g.locks cell = .free
  log : g.log = []

/-- A task has added a member. -/
def Holds (stages : TaskId → Stage K) (t : TaskId) (m : Member) : Prop :=
  (stages t).progress.member? = some m

/-- Where a fleet stands among registrations, since the world was `u`: whoever has become a member
was added by exactly one task, and tasks have called no more than what is theirs. -/
structure Settled (crew : TaskId → Registry.Descriptor (Factory K)) (u : World K)
    (stages : TaskId → Stage K) (v : World K) (log : List (TaskId × Invocation)) : Prop where
  registers : ∀ t, (stages t).descriptor = crew t
  grows : Grows u v
  names : v.roster.members.map (·.name) = v.roster.order
  nodup : v.roster.order.Nodup
  added : ∀ t m, Holds stages t m →
    m ∈ v.roster.members ∧ m ∉ u.roster.members ∧ m.name = (crew t).name
  adder : ∀ m ∈ v.roster.members, m ∈ u.roster.members ∨ ∃ t, Holds stages t m
  unique : ∀ t t' m, Holds stages t m → Holds stages t' m → t = t'
  leftOut : ∀ n ∈ Registry.namesOf v.roster.skipped, n ∈ Registry.namesOf u.roster.skipped ∨
    ∃ t, (stages t).progress = .leftOut ∧ (crew t).name = n
  calls : ∀ t what, (t, what) ∈ log → what = .factory (crew t).name ∨
    ∃ m, Holds stages t m ∧ (what = .build m.cell .boot ∨ what.isOfMini = true)
  reported : ∀ t m, (stages t).progress = .through m → v.Reported m.cell

namespace Settled

theorem keep (h : Settled crew u stages v log) (hw : Grows v w)
    (hmembers : w.roster.members = v.roster.members) (horder : w.roster.order = v.roster.order)
    (hskipped : w.roster.skipped = v.roster.skipped) : Settled crew u stages w log where
  registers := h.registers
  grows := h.grows.trans hw
  names := by rw [hmembers, horder, h.names]
  nodup := horder ▸ h.nodup
  added := hmembers ▸ h.added
  adder := hmembers ▸ h.adder
  unique := h.unique
  leftOut := hskipped ▸ h.leftOut
  calls := h.calls
  reported t m hm := hw.reported _ (h.reported t m hm)

theorem retains (h : Settled crew u stages v log) (hw : v.Retains w) :
    Settled crew u stages w log := by
  refine h.keep (grows_of_retains hw) ?_ ?_ ?_ <;> rw [hw.roster]

theorem registers_update (h : Settled crew u stages v log) (t : TaskId) (p : Progress)
    (t' : TaskId) : (Function.update stages t ⟨crew t, p⟩ t').descriptor = crew t' := by
  rw [Function.update_apply]
  split
  · subst t'
    rfl
  · exact h.registers t'

theorem setStage (h : Settled crew u stages v log) (t : TaskId) {p : Progress}
    (hmember : p.member? = (stages t).progress.member?)
    (hleft : (stages t).progress = .leftOut → p = .leftOut)
    (hreported : ∀ m, p = .through m → v.Reported m.cell) :
    Settled crew u (Function.update stages t ⟨crew t, p⟩) v log := by
  have hholds (t' : TaskId) (m : Member) :
      Holds (Function.update stages t ⟨crew t, p⟩) t' m ↔ Holds stages t' m := by
    unfold Holds
    rw [Function.update_apply]
    split
    · subst t'
      rw [hmember]
    · rfl
  constructor
  case registers => exact h.registers_update t p
  case grows => exact h.grows
  case names => exact h.names
  case nodup => exact h.nodup
  case added => simpa only [hholds] using h.added
  case adder => simpa only [hholds] using h.adder
  case unique => simpa only [hholds] using h.unique
  case leftOut =>
    intro n hn
    rcases h.leftOut n hn with hold | ⟨t', ht', hname⟩
    · exact .inl hold
    · refine .inr ⟨t', ?_, hname⟩
      rw [Function.update_apply]
      split
      · subst t'
        exact hleft ht'
      · exact ht'
  case calls => simpa only [hholds] using h.calls
  case reported =>
    intro t' m hm
    rw [Function.update_apply] at hm
    split at hm
    · exact hreported m hm
    · exact h.reported t' m hm

theorem skip (h : Settled crew u stages v log) (t : TaskId) (reason : String)
    (ht : (stages t).progress = .leftOut) :
    Settled crew u stages (skipLate (crew t).name reason v) log where
  registers := h.registers
  grows := h.grows.trans (grows_skipLate _ reason v)
  names := h.names
  nodup := h.nodup
  added := h.added
  adder := h.adder
  unique := h.unique
  leftOut n hn := by
    have hnames : Registry.namesOf (skipLate (crew t).name reason v).roster.skipped =
        Registry.namesOf v.roster.skipped ++ [(crew t).name] := by
      simp [Registry.namesOf, skipLate]
    rw [hnames, List.mem_append, List.mem_singleton] at hn
    rcases hn with hn | rfl
    · exact h.leftOut n hn
    · exact .inr ⟨t, ht, rfl⟩
  calls := h.calls
  reported := h.reported

theorem join (h : Settled crew u stages v log) (t : TaskId)
    {step : Registry.Step (Factory K)} (product : Product K) (hname : step.name = (crew t).name)
    (hfree : v.roster.member? (crew t).name = none) (ht : (stages t).progress = .outside) :
    Settled crew u (Function.update stages t ⟨crew t, .inside
        ⟨step.name, v.cells.size, step.dependencies, step.links, step.isManager⟩⟩)
      (Fleet.join step product v) log := by
  set m : Member := ⟨step.name, v.cells.size, step.dependencies, step.links, step.isManager⟩
  have hmembers : (Fleet.join step product v).roster.members = v.roster.members ++ [m] := rfl
  have horder : (Fleet.join step product v).roster.order = v.roster.order ++ [step.name] := rfl
  have hnew : step.name ∉ v.roster.members.map (·.name) := by
    rw [← Roster.member?_isSome_iff, hname, hfree]
    simp
  have hfresh {m' : Member} (hm' : m' ∈ v.roster.members) : m' ≠ m := by
    rintro rfl
    exact hnew (List.mem_map_of_mem hm')
  have hgrows := grows_join step product v
  have hholds (t' : TaskId) (m' : Member) :
      Holds (Function.update stages t ⟨crew t, .inside m⟩) t' m' ↔
        t' = t ∧ m' = m ∨ Holds stages t' m' := by
    unfold Holds
    rw [Function.update_apply]
    split
    · subst t'
      simp [Progress.member?, ht, eq_comm]
    · simp [*]
  constructor
  case registers => exact h.registers_update t _
  case grows => exact h.grows.trans hgrows
  case names =>
    rw [hmembers, horder, List.map_append, h.names]
    rfl
  case nodup =>
    rw [horder, ← List.concat_eq_append]
    exact h.nodup.concat (h.names ▸ hnew)
  case added =>
    intro t' m' hm'
    rw [hmembers, List.mem_append, List.mem_singleton]
    rcases (hholds t' m').1 hm' with ⟨rfl, rfl⟩ | hold
    · exact ⟨.inr rfl, fun hmem => hfresh (h.grows.members.subset hmem) rfl, hname⟩
    · obtain ⟨hmem, hrest⟩ := h.added t' m' hold
      exact ⟨.inl hmem, hrest⟩
  case adder =>
    intro m' hm'
    rw [hmembers, List.mem_append, List.mem_singleton] at hm'
    rcases hm' with hm' | rfl
    · exact (h.adder m' hm').imp_right fun ⟨t', ht'⟩ => ⟨t', (hholds t' m').2 (.inr ht')⟩
    · exact .inr ⟨t, (hholds t m).2 (.inl ⟨rfl, rfl⟩)⟩
  case unique =>
    intro t₁ t₂ m' h₁ h₂
    rcases (hholds t₁ m').1 h₁ with ⟨ht₁, hm₁⟩ | h₁ <;>
      rcases (hholds t₂ m').1 h₂ with ⟨ht₂, hm₂⟩ | h₂
    · exact ht₁.trans ht₂.symm
    · exact absurd hm₁ (hfresh (h.added t₂ m' h₂).1)
    · exact absurd hm₂ (hfresh (h.added t₁ m' h₁).1)
    · exact h.unique t₁ t₂ m' h₁ h₂
  case leftOut =>
    intro n hn
    rcases h.leftOut n hn with hold | ⟨t', ht', hname'⟩
    · exact .inl hold
    · refine .inr ⟨t', ?_, hname'⟩
      rw [Function.update_apply, if_neg]
      · exact ht'
      · rintro rfl
        rw [ht] at ht'
        cases ht'
  case calls =>
    intro t' what hcall
    exact (h.calls t' what hcall).imp_right fun ⟨m', hm', hwhat⟩ =>
      ⟨m', (hholds t' m').2 (.inr hm'), hwhat⟩
  case reported =>
    intro t' m' hm'
    rw [Function.update_apply] at hm'
    split at hm'
    · cases hm'
    · exact hgrows.reported _ (h.reported t' m' hm')

theorem moves {t : TaskId} {s : Stage K} (h : Settled crew u stages v log)
    (hmoves : Moves (stages t) v s w) : Settled crew u (Function.update stages t s) w log := by
  have hcrew := h.registers t
  generalize hs : stages t = before at hmoves hcrew
  cases hmoves with
  | stay retains =>
    subst hs
    rw [Function.update_eq_self]
    exact h.retains retains
  | skip reason =>
    obtain rfl := hcrew
    refine (h.setStage t ?_ ?_ ?_).skip t reason ?_ <;> simp [hs, Progress.member?]
  | join product name free =>
    obtain rfl := hcrew
    exact h.join t product name free (by rw [hs])
  | @pass d m v w retains reported =>
    obtain rfl := hcrew
    refine (h.retains retains).setStage t ?_ ?_ ?_
    · simp [hs, Progress.member?]
    · simp [hs]
    · rintro m' ⟨⟩
      exact reported
  | recount report =>
    rw [← hs, Function.update_eq_self]
    exact h.keep (grows_recount report v) rfl rfl rfl

theorem invokes {t : TaskId} {what : Invocation} (h : Settled crew u stages v log)
    (hpermits : Permits (stages t) what v) : Settled crew u stages v (log ++ [(t, what)]) := by
  refine { h with calls := fun t' what' hcall => ?_ }
  rcases List.mem_append.1 hcall with hcall | hcall
  · exact h.calls t' what' hcall
  obtain ⟨rfl, rfl⟩ : t' = t ∧ what' = what := by simpa using hcall
  have hcrew := h.registers t'
  generalize hs : stages t' = s at hpermits hcrew
  have hholds {d : Registry.Descriptor (Factory K)} {m : Member} (hs : stages t' = ⟨d, .inside m⟩) :
      Holds stages t' m := by
    rw [Holds, hs]
    rfl
  cases hpermits with
  | factory running =>
    obtain rfl := hcrew
    exact .inl rfl
  | build => exact .inr ⟨_, hholds hs, .inl rfl⟩
  | mini isOfMini => exact .inr ⟨_, hholds hs, .inr isOfMini⟩

theorem happens (h : Settled crew u stages v g.log)
    (happens : Throng.Happens registering g stages v g' stages' w) :
    Settled crew u stages' w g'.log := by
  cases happens with
  | rests t p idle => exact h
  | changes t p idle changes => exact h.moves changes
  | invokes t p idle invokes => exact h.invokes invokes
  | @enters t p cell access wants takes meets =>
    have hsame : Function.update stages t (registering.take (stages t) cell) = stages :=
      Function.update_eq_self t stages
    rwa [hsame]
  | linesUp t wants takes apart waits => exact h
  | @gives t p cell idle gives =>
    have hsame : (fun t' => if t' ∈ ((g.locks cell).release t).2
        then registering.take (stages t') cell
        else Function.update stages t (registering.give (stages t) cell) t') = stages := by
      funext t'
      split
      · rfl
      · exact congrFun (Function.update_eq_self t stages) t'
    rwa [hsame]

theorem initial (hordered : u.roster.Ordered) :
    Settled crew u (fun t => ⟨crew t, .outside⟩) u [] where
  registers _ := rfl
  grows := .refl u
  names := hordered.names
  nodup := hordered.nodup
  added _ _ h := by cases h
  adder _ h := .inl h
  unique _ _ _ h := by cases h
  leftOut _ h := .inl h
  calls _ _ h := by cases h
  reported _ _ h := by cases h

end Settled

/-- Whatever registrations come to in an ordered fleet, they are at stages that account for it. -/
theorem Arrivals.settled (h : Arrivals crew g) (hordered : g.world.roster.Ordered)
    (run : g.Becomes World.Retains g') :
    ∃ stages, Throng.Governed registering (fun _ => Ends) g' stages g'.world ∧
      Settled crew g.world stages g'.world g'.log := by
  have hgoverned : Throng.Governed registering (fun _ => Ends) g
      (fun t => ⟨crew t, .outside⟩) g.world :=
    ⟨rfl, fun t => by rw [h.tasks]; exact follows_register (crew t) g.world⟩
  have hinitial : Settled crew g.world (fun t => ⟨crew t, .outside⟩) g.world g.log := by
    rw [h.log]
    exact .initial hordered
  have hbecomes : g'.Orderly ∧ ∃ stages v,
      Throng.Governed registering (fun _ => Ends) g' stages v ∧
        Settled crew g.world stages v g'.log := by
    refine hgoverned.becomes (P := fun c stages v => Settled crew g.world stages v c.log) run
      (Throng.orderly_of_free h.locks) hinitial ?_ fun _ _ hP happens => hP.happens happens
    intro c stages v w hP hworld hw
    have hretains : v.Retains w := by
      rw [world_registering] at hworld
      rwa [hworld]
    exact ⟨w, rfl, grows_of_retains hretains, hP.retains hretains⟩
  obtain ⟨-, stages, v, hgov, hsettled⟩ := hbecomes
  obtain rfl : v = g'.world := hgov.world
  exact ⟨stages, hgov, hsettled⟩

theorem ends_of_done {t : TaskId} {r : Except Fault Report}
    (h : Throng.Governed registering (fun _ => Ends) g stages v) (ht : g.tasks t = .done r) :
    Ends (stages t) r v := h.post_of_done ht

theorem Settled.holder_eq {t t' : TaskId} {m m' : Member} (h : Settled crew u stages v log)
    (hm : Holds stages t m) (hm' : Holds stages t' m') (hname : m.name = m'.name) :
    t = t' ∧ m = m' := by
  have hnodup : (v.roster.members.map (·.name)).Nodup := h.names ▸ h.nodup
  obtain rfl : m = m' :=
    List.inj_on_of_nodup_map hnodup (h.added t m hm).1 (h.added t' m' hm').1 hname
  exact ⟨h.unique t t' m hm hm', rfl⟩

theorem Settled.calls_of_not_holds {t : TaskId} {what : Invocation}
    (h : Settled crew u stages v log) (ht : ∀ m, ¬ Holds stages t m) (hwhat : (t, what) ∈ log) :
    what = .factory (crew t).name := by
  rcases h.calls t what hwhat with hfactory | ⟨m, hm, -⟩
  · exact hfactory
  · exact absurd hm (ht m)

theorem error_of_not_holds {t : TaskId} {r : Except Fault Report} (h : Ends (stages t) r v)
    (ht : ∀ m, ¬ Holds stages t m) : ∃ fault, r = .error fault := by
  unfold Holds at ht
  generalize stages t = s at h ht
  cases h with
  | outside _ => exact ⟨_, rfl⟩
  | leftOut _ => exact ⟨_, rfl⟩
  | booted _ => exact absurd rfl (ht _)
  | aborted _ _ => exact ⟨_, rfl⟩

/-- How registrations under one name fare that have come from `g` to `g'`. -/
structure Admits (crew : TaskId → Registry.Descriptor (Factory K))
    (g g' : Throng K (Except Fault Report)) (name : String) (winner : Option TaskId) : Prop where
  /-- The winner has added the one member of that name, and runs the hooks of no other cell. -/
  won : ∀ t ∈ winner, (crew t).name = name ∧ ∃ m ∈ g'.world.roster.members,
    m ∉ g.world.roster.members ∧ m.name = name ∧ ∀ what, (t, what) ∈ g'.log →
      what = .factory name ∨ what = .build m.cell .boot ∨ what.isOfMini = true
  /-- All others under that name call no more than their factories, and end with a fault. -/
  lost : ∀ t ∉ winner, (crew t).name = name → (∀ what, (t, what) ∈ g'.log → what = .factory name) ∧
    ∀ r, g'.tasks t = .done r → ∃ fault, r = .error fault
  /-- Without a winner the fleet has no new member of that name. -/
  kept : winner = none → ∀ m ∈ g'.world.roster.members, m.name = name →
    m ∈ g.world.roster.members
  /-- There is a winner, and it boots, if the name was free and no registration under it ends for
  another reason than that the name is taken. -/
  boots : ¬ IsTaken g.world.roster name → (∃ t, (crew t).name = name) →
    (∀ t, (crew t).name = name → (∃ report, g'.tasks t = .done (.ok report)) ∨
      g'.tasks t = .done (.error (.duplicateComponent name)) ∧
        ¬ MayFail (crew t) (.duplicateComponent name)) →
    ∃ t ∈ winner, ∃ report, g'.tasks t = .done (.ok report)

variable {name : String}

theorem Settled.admits_some {t : TaskId} {m : Member}
    (hgov : Throng.Governed registering (fun _ => Ends) g' stages g'.world)
    (h : Settled crew g.world stages g'.world g'.log) (hm : Holds stages t m)
    (hname : m.name = name) : Admits crew g g' name (some t) where
  won t' ht' := by
    obtain rfl := Option.some.inj ht'
    obtain ⟨hmem, hnew, hcrew⟩ := h.added t m hm
    refine ⟨hcrew ▸ hname, m, hmem, hnew, hname, fun what hwhat => ?_⟩
    rcases h.calls t what hwhat with hfactory | ⟨m', hm', hwhat'⟩
    · left
      rw [hfactory, ← hcrew, hname]
    · obtain rfl : m = m' := Option.some.inj (hm.symm.trans hm')
      exact .inr hwhat'
  lost t' ht' hcrew := by
    have hnot : ∀ m', ¬ Holds stages t' m' := by
      intro m' hm'
      have hsame := (h.holder_eq hm hm' (by rw [hname, (h.added t' m' hm').2.2, hcrew])).1
      exact ht' (congrArg some hsame)
    refine ⟨fun what hwhat => ?_, fun r hr => error_of_not_holds (ends_of_done hgov hr) hnot⟩
    rw [h.calls_of_not_holds hnot hwhat, hcrew]
  kept hnone := by cases hnone
  boots _ _ hall := by
    refine ⟨t, rfl, ?_⟩
    rcases hall t ((h.added t m hm).2.2 ▸ hname) with hok | ⟨hdone, -⟩
    · exact hok
    · have hends := ends_of_done hgov hdone
      unfold Holds at hm
      generalize stages t = s at hends hm
      cases hends with
      | outside _ => cases hm

theorem Ends.ne_leftOut {s : Stage K} {r : Except Fault Report} (h : Ends s r v)
    (hr : ∀ reason, r ≠ .error (.componentSkipped s.descriptor.name reason)) :
    s.progress ≠ .leftOut := by
  cases h with
  | leftOut reason => exact absurd rfl (hr reason)
  | _ => exact Progress.noConfusion

/-- If a name was free, and nobody has added a member of that name, somebody has left its component
out under the name when it is taken. -/
theorem Settled.exists_leftOut (h : Settled crew u stages v log)
    (hnobody : ∀ t m, Holds stages t m → m.name ≠ name) (hfree : ¬ IsTaken u.roster name)
    (htaken : IsTaken v.roster name) :
    ∃ t, (crew t).name = name ∧ (stages t).progress = .leftOut := by
  rcases htaken with hmember | hskipped
  · obtain ⟨m, hm, hname⟩ := List.mem_map.1 hmember
    rcases h.adder m hm with hold | ⟨t, ht⟩
    · exact absurd (.inl (hname ▸ List.mem_map_of_mem hold)) hfree
    · exact absurd hname (hnobody t m ht)
  · rcases h.leftOut name hskipped with hold | ⟨t, hleft, hname⟩
    · exact absurd (.inr hold) hfree
    · exact ⟨t, hname, hleft⟩

theorem Settled.admits_none
    (hgov : Throng.Governed registering (fun _ => Ends) g' stages g'.world)
    (h : Settled crew g.world stages g'.world g'.log)
    (hnobody : ∀ t m, Holds stages t m → m.name ≠ name) : Admits crew g g' name none where
  won _ ht := by cases ht
  lost t _ hcrew := by
    have hnot : ∀ m, ¬ Holds stages t m := fun m hm =>
      hnobody t m hm ((h.added t m hm).2.2.trans hcrew)
    refine ⟨fun what hwhat => ?_, fun r hr => error_of_not_holds (ends_of_done hgov hr) hnot⟩
    rw [h.calls_of_not_holds hnot hwhat, hcrew]
  kept _ m hm hname := by
    rcases h.adder m hm with hold | ⟨t, ht⟩
    · exact hold
    · exact absurd hname (hnobody t m ht)
  boots hfree hsome hall := by
    obtain ⟨t, ht⟩ := hsome
    have hnot : ∀ m, ¬ Holds stages t m := fun m hm =>
      hnobody t m hm ((h.added t m hm).2.2.trans ht)
    rcases hall t ht with ⟨report, hok⟩ | ⟨hdone, hfactory⟩
    · obtain ⟨fault, hfault⟩ := error_of_not_holds (ends_of_done hgov hok) hnot
      cases hfault
    have huntaken : ¬ IsTaken g'.world.roster name := by
      intro htaken
      obtain ⟨t', hname, hleft⟩ := h.exists_leftOut hnobody hfree htaken
      rcases hall t' hname with ⟨report, hok⟩ | ⟨hdone', -⟩
      · exact (ends_of_done hgov hok).ne_leftOut (by simp) hleft
      · exact (ends_of_done hgov hdone').ne_leftOut (by simp) hleft
    have hregisters := h.registers t
    have hends := ends_of_done hgov hdone
    generalize stages t = s at hends hregisters
    cases hends with
    | outside duplicate =>
      obtain rfl := hregisters
      rcases duplicate (by rw [ht]) with htaken | hfail
      · exact absurd (ht ▸ htaken) huntaken
      · exact absurd hfail hfactory

/-- Any number of registrations side by side in a running fleet, in whatever order their steps come.
Whenever one looks, each name of a member stands in the order once, nobody is replaced, and under
each name at most one registration has added a member. It alone runs hooks of components, and those
of its own member; the others under that name end with a fault. -/
theorem registrations_admit_one {registry : Registry K}
    {ds : List (Registry.Descriptor (Factory K))} {config : Config}
    (hregistry : Registry.empty.registerAll ds = .ok registry)
    (hfounded : Founded registry config u) (hattended : Attended u g.world)
    (harrivals : Arrivals crew g) (run : g.Becomes World.Retains g') :
    g'.world.roster.members.map (·.name) = g'.world.roster.order ∧
      g'.world.roster.order.Nodup ∧
      g.world.roster.members <+: g'.world.roster.members ∧
      ∀ name, ∃ winner, Admits crew g g' name winner := by
  have hr : registry.names.Nodup := Registry.nodup_names_registerAll hregistry List.nodup_nil
  obtain ⟨p, hp, board⟩ := hfounded.boarded hr
  have hordered : g.world.roster.Ordered := hattended.advances.ordered (board.ordered hp)
  obtain ⟨stages, hgov, hsettled⟩ := harrivals.settled hordered run
  refine ⟨hsettled.names, hsettled.nodup, hsettled.grows.members, fun name => ?_⟩
  by_cases hwinner : ∃ t m, Holds stages t m ∧ m.name = name
  · obtain ⟨t, m, hm, hname⟩ := hwinner
    exact ⟨some t, hsettled.admits_some hgov hm hname⟩
  · exact ⟨none, hsettled.admits_none hgov fun t m hm hname => hwinner ⟨t, m, hm, hname⟩⟩

/-- Two registrations of an interface, and others that never begin, in a fleet with a cache. -/
def twoInterfaces : TaskId → Registry.Descriptor (Factory Rehearsal.kit)
  | 0 | 1 => idle "api" ["cache"]
  | _ => idle "web" []

def interfacesComing : Throng Rehearsal.kit (Except Fault Report) where
  world := after (start cacheAndStore {}) {}
  tasks t := register (twoInterfaces t)

/-- What the two come to that go on in turns. -/
def interfacesThrough : Throng Rehearsal.kit (Except Fault Report) :=
  interfacesComing.following (List.replicate 18 [0, 1]).flatten

/-- Of two registrations of an interface that go on in turns one boots, and the other one ends as a
duplicate. -/
theorem registrations_admit_one_api :
    interfacesThrough.world.roster.order = ["store", "cache", "api"] ∧
      interfacesThrough.world.roster.order.Nodup ∧
      ∃ winner, Admits twoInterfaces interfacesComing interfacesThrough "api" winner ∧
        ∃ t ∈ winner, ∃ report, interfacesThrough.tasks t = .done (.ok report) := by
  have hu : Founded cacheAndStore {} (after (start cacheAndStore {}) {}) := founded_after rfl
  have harrivals : Arrivals twoInterfaces interfacesComing := ⟨fun _ => rfl, fun _ => rfl, rfl⟩
  have hattended : Attended (after (start cacheAndStore {}) {}) interfacesComing.world := .refl
  obtain ⟨-, hnodup, -, hall⟩ := registrations_admit_one registerAll_cacheAndStore hu hattended
    harrivals (Throng.becomes_following _ interfacesComing : Throng.Becomes _ _ interfacesThrough)
  obtain ⟨winner, hadmits⟩ := hall "api"
  refine ⟨by decide +kernel, hnodup, winner, hadmits, hadmits.boots ?_ ⟨0, rfl⟩ ?_⟩
  · show ¬ ("api" ∈ _ ∨ "api" ∈ _)
    decide +kernel
  · intro t ht
    match t with
    | 0 =>
      have hdone : (Throng.answer? (interfacesThrough.tasks 0)).map Except.toBool = some true := by
        decide +kernel
      obtain ⟨r, hr, hok⟩ := Option.map_eq_some_iff.1 hdone
      cases r with
      | error fault => cases hok
      | ok report => exact .inl ⟨report, Throng.eq_done_of_answer? hr⟩
    | 1 =>
      have hdone : Throng.answer? (interfacesThrough.tasks 1) =
          some (.error (.duplicateComponent "api")) := by decide +kernel
      refine .inr ⟨Throng.eq_done_of_answer? hdone, ?_⟩
      rintro ⟨ctx, factory, isManager, hkind, r, hr⟩
      cases hkind
      cases hr
    | n + 2 => simp [twoInterfaces, idle, Registry.Blueprint.concrete] at ht

end Fleet

end Steward
