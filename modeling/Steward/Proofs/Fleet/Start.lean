import Steward.Proofs.Fleet.Boarding
import Steward.Rehearsal.Kit
/-!
Starting a fleet. Either all components of the plan are booted in its order, or the first one that
fails decides the result, and those that were built are torn down, each once and the last one
first. Without a plan nothing runs.
-/
namespace Steward.Fleet

open Steward.Action

variable {K : Kit} {config : Config} {may : Invocation → World K → Prop} {w : World K}

def AllStanding (ms : List Member) (w : World K) : Prop :=
  ∀ m ∈ ms, w.roster.member? m.name = some m ∧ w.Houses m.cell m.name ∧ w.IsStanding m.cell

theorem meets_destroyMembers (hmini : ∀ what v, what.isOfMini = true → may what v)
    (hmay : ∀ cell v, may (.destroy cell) v) {ms : List Member} (hms : AllStanding ms w)
    (hcells : (ms.map (·.cell)).Nodup) :
    Meets (founding config may) (destroyMembers (ms.map (·.name)))
      (fun calls _ v => ofMembers calls = ms.map (fun m => .destroy m.cell) ∧
        World.Keeps (fun _ => False) w v) w := by
  induction ms generalizing w with
  | nil =>
    exact Meets.pure fun v hv => ⟨rfl, hv.roster, hv.config, hv.cells.mono fun _ h => h.elim⟩
  | cons m ms ih =>
    obtain ⟨⟨hmember, hhouses, hstanding⟩, hrest⟩ := List.forall_mem_cons.1 hms
    obtain ⟨hcell, hcells⟩ := List.nodup_cons.1 hcells
    refine Meets.get fun v hv => ?_
    rw [hv.roster, hmember]
    have hhosts : Hosts (sparing (fun id => id ≠ m.cell) may) fun id => id ≠ m.cell :=
      hosts_sparing hmini
    have hdestroy := Cell.meets_destroy (w := v) hhosts (fun h => absurd rfl h) fun x _ => hmay _ x
    refine Meets.seq (founding_of_sparing hdestroy) fun before _ x _ hx => ?_
    obtain ⟨hx, -, hbefore⟩ := hx
    have hcalls : ofMembers before = [.destroy m.cell] :=
      (hbefore (hv.cells.isStanding trivial hstanding) fun h => h.cells).of_houses
        (hv.cells.houses hhouses)
    have hkeeps : World.Keeps (fun id => id ≠ m.cell) w x :=
      ⟨hx.roster.trans hv.roster, hx.config.trans hv.config,
        (hv.cells.mono fun _ _ => trivial).trans hx.cells⟩
    have hstill : AllStanding ms x := by
      intro n hn
      obtain ⟨hn', hnhouses, hnstanding⟩ := hrest n hn
      refine ⟨hkeeps.roster ▸ hn', hkeeps.cells.houses hnhouses, ?_⟩
      refine hkeeps.cells.isStanding (fun heq => hcell ?_) hnstanding
      exact List.mem_map.2 ⟨n, hn, heq⟩
    refine (ih hstill hcells).mono fun later _ y hy => ⟨?_, ?_⟩
    · rw [ofMembers_append, hcalls, hy.1]
      rfl
    · refine ⟨hy.2.roster.trans hkeeps.roster, hy.2.config.trans hkeeps.config, ?_⟩
      exact (hkeeps.cells.mono fun _ h => h.elim).trans hy.2.cells

theorem Boarded.allStanding {p : Registry.Plan (Factory K)} {joined built : List (Step K)}
    (h : Boarded p joined built w) (hnodup : (joined.map (·.name)).Nodup) :
    AllStanding w.roster.members w := by
  intro m hm
  obtain ⟨s, -, hs⟩ := exists_left_of_forall₂ h.members hm
  rw [← h.names] at hnodup
  exact ⟨Roster.member?_of_mem hnodup hm, hs.name ▸ hs.houses, hs.standing⟩

theorem meets_shutdown {p : Registry.Plan (Factory K)} {joined built : List (Step K)}
    (hmini : ∀ what v, what.isOfMini = true → may what v)
    (hmay : ∀ cell v, may (.destroy cell) v) (h : Boarded p joined built w)
    (hnodup : (joined.map (·.name)).Nodup) :
    Meets (founding config may) shutdown
      (fun calls _ v =>
        ofMembers calls = w.roster.members.reverse.map (fun m => .destroy m.cell) ∧
          World.Keeps (fun _ => False) w v) w := by
  refine Meets.get fun v hv => ?_
  have hboard := h.keeps hv
  have horder : v.roster.order.reverse = v.roster.members.reverse.map (·.name) := by
    rw [hboard.order, ← hboard.names, List.map_reverse]
  rw [horder]
  have hstanding : AllStanding v.roster.members.reverse v := fun m hm =>
    hboard.allStanding hnodup m (List.mem_reverse.1 hm)
  have hcells : (v.roster.members.reverse.map (·.cell)).Nodup := by
    rw [List.map_reverse, List.nodup_reverse]
    exact hboard.cells
  refine Meets.seq (meets_destroyMembers hmini hmay hstanding hcells) fun before _ x _ hx => ?_
  refine Meets.report fun y hy => ⟨.inl rfl, Meets.pure fun z hz => ⟨?_, ?_⟩⟩
  · rw [List.append_nil, hx.1, hv.roster]
  · have hvw : World.Keeps (fun _ => False) w v :=
      ⟨hv.roster, hv.config, hv.cells.mono fun _ h => h.elim⟩
    have hrest : World.Keeps (fun _ => True) x z := hy.trans ((World.keeps_report y _).trans hz)
    exact (hvw.trans hx.2).trans ⟨hrest.roster, hrest.config, hrest.cells.mono fun _ h => h.elim⟩

/-- What is done about an abort calls nothing, and ends the process only if that is configured. -/
theorem meets_onAbort (fault : Fault) (hconfig : w.config = config) :
    Meets (founding config may) (onAbort fault)
      (fun calls _ v => calls = [] ∧ World.Keeps (fun _ => True) w v) w := by
  cases fault with
  | buildAborted name message =>
    refine Meets.get fun v hv => ?_
    cases hpolicy : v.config.abortPolicy with
    | propagate =>
      refine Meets.of_bind_pure (Meets.report fun u hu =>
        ⟨.inl rfl, Meets.pure fun x hx => ⟨rfl, ?_⟩⟩)
      exact hv.trans (hu.trans ((World.keeps_report u _).trans hx))
    | exit =>
      refine Meets.report fun u hu => ⟨.inl rfl, ?_⟩
      exact (hv.config.trans hconfig) ▸ hpolicy
  | _ => exact Meets.pure fun v hv => ⟨rfl, hv⟩

/-- How a start ends with a plan. -/
inductive Started (p : Registry.Plan (Factory K)) (calls : Calls K) (w : World K) :
    Except Fault Unit → Prop
  | all (board : Boarded p p.steps p.steps w)
      (trace : ofMembers calls = w.roster.members.flatMap bootCalls) : Started p calls w (.ok ())
  | unmade {before after : List (Step K)} {s : Step K} {u : World K} {fault : Fault}
      (split : p.steps = before ++ s :: after)
      (names : w.roster.members.map (·.name) = before.map (·.name))
      (cells : ∀ m ∈ w.roster.members, w.Houses m.cell m.name)
      (trace : ofMembers calls = w.roster.members.flatMap bootCalls ++
        .factory s.name :: w.roster.members.reverse.map fun m => .destroy m.cell)
      (called : (.factory s.name, u) ∈ calls)
      (product : (s.factory ⟨s.name, u⟩).product = .error fault) :
      Started p calls w (.error fault)
  | aborted {before after : List (Step K)} {s : Step K} {report : Report}
      (split : p.steps = before ++ s :: after)
      (names : w.roster.members.map (·.name) = (before ++ [s]).map (·.name))
      (cells : ∀ m ∈ w.roster.members, w.Houses m.cell m.name)
      (trace : ofMembers calls = w.roster.members.flatMap bootCalls ++
        w.roster.members.reverse.map fun m => .destroy m.cell)
      (component : report.component = s.name) (token : report.token = .boot)
      (fatal : report.outcome.isFatal = true) :
      Started p calls w (.error (.buildAborted s.name (report.message.getD "")))

variable {registry : Registry K} {p : Registry.Plan (Factory K)}

theorem meets_failed {joined built : List (Step K)} {fault : Fault}
    (hmini : ∀ what v, what.isOfMini = true → may what v) (hmay : ∀ cell v, may (.destroy cell) v)
    (h : Boarded p joined built w) (hnodup : (joined.map (·.name)).Nodup)
    (hconfig : w.config = config) :
    Meets (founding config may) (do
      onAbort fault
      report (.bootFailed fault.message)
      discard shutdown
      return .error fault)
      (fun calls (r : Except Fault Unit) v => r = .error fault ∧
        ofMembers calls = w.roster.members.reverse.map (fun m => .destroy m.cell) ∧
          World.Keeps (fun _ => False) w v) w := by
  refine Meets.seq (meets_onAbort fault hconfig) fun before _ v _ hv => ?_
  obtain ⟨rfl, hv⟩ := hv
  refine Meets.report fun u hu => ⟨.inl rfl, ?_⟩
  have hwu : World.Keeps (fun _ => True) w (u.report (.bootFailed fault.message)) :=
    hv.trans (hu.trans (World.keeps_report u _))
  have hdiscard : (discard shutdown : Action K Unit) = shutdown >>= fun _ => pure () := rfl
  rw [hdiscard, bind_assoc]
  refine Meets.seq (meets_shutdown hmini hmay (h.keeps hwu) hnodup) fun down _ x _ hx => ?_
  refine Meets.pure fun y hy => ⟨rfl, ?_, ?_⟩
  · rw [List.nil_append, List.append_nil, hx.1, hwu.roster]
  · have hkeeps : World.Keeps (fun _ => False) w x :=
      ⟨hx.2.roster.trans hwu.roster, hx.2.config.trans hwu.config,
        (hwu.cells.mono fun _ h => h.elim).trans hx.2.cells⟩
    exact hkeeps.trans ⟨hy.roster, hy.config, hy.cells.mono fun _ h => h.elim⟩

theorem Boarded.houses {joined built : List (Step K)} {v : World K} (h : Boarded p joined built v)
    (hw : World.Keeps (fun _ => False) v w) : ∀ m ∈ w.roster.members, w.Houses m.cell m.name :=
  (h.housed.keeps hw).houses

theorem meets_start (hr : registry.names.Nodup)
    (hplan : (registry.plan config.context).2 = .ok p) :
    Meets (founding config (FactoryFindsAll p (registry.blueprints config.context)))
      (start registry config)
      (fun calls r v => Started p calls v r) w := by
  have hp : p.Sound (registry.blueprints config.context) config.context :=
    Registry.sound_plan hr hplan
  have hbs : ((registry.blueprints config.context).map (·.name)).Nodup := by
    rwa [Registry.names_blueprints]
  rcases hsplit : registry.plan config.context with ⟨notes, planned⟩
  obtain rfl : planned = .ok p := by rwa [hsplit] at hplan
  simp only [start, hsplit]
  refine Meets.modify fun a ha => ⟨.inl (World.keeps_notes (fun _ => True) _ a).config, ?_⟩
  refine Meets.modify fun b hb => ⟨.inl (World.keeps_reports (fun _ => True) _ b).config, ?_⟩
  refine Meets.modify fun c hc => ⟨.inr rfl, ?_⟩
  refine Meets.report fun d hd => ⟨.inl rfl, ?_⟩
  refine Meets.get fun e he => ?_
  have hfound : Boarded p [] [] (found config p c) := by
    exact ⟨.nil, List.nodup_nil, rfl, rfl, rfl, rfl⟩
  have hstart : World.Keeps (fun _ => True) (found config p c) e :=
    hd.trans ((World.keeps_report d _).trans he)
  have hold : e.roster.members = [] := by
    rw [hstart.roster]
    rfl
  have hconfig : e.config = config := hstart.config
  have hmay : ∀ cell v, FactoryFindsAll p (registry.blueprints config.context) (.destroy cell) v :=
    fun _ v => .of_not (by simp) v
  refine Meets.seq (meets_bootAll hp hbs rfl (hfound.keeps hstart)) fun first r v hv hbooted => ?_
  rw [hold] at hbooted
  have hv' : v.config = config := hv.elim (fun h => h.trans hconfig) fun h => h
  cases hbooted with
  | @all new board members trace =>
    refine Meets.modify fun x hx => ⟨.inl rfl, Meets.pure fun y hy => ?_⟩
    have hkeeps : World.Keeps (fun _ => True) v y :=
      hx.trans ((World.keeps_report x _).trans hy)
    refine .all (board.keeps hkeeps) ?_
    rw [List.append_nil, trace, hkeeps.roster, members, List.nil_append]
  | @unmade before after s new u fault split board members trace called product =>
    have hnodup := (nodup_names_before hp split).1
    refine (meets_failed factoryFindsAll_of_mini hmay board hnodup hv').mono ?_
    rintro later _ x ⟨rfl, hdown, hkeeps⟩
    have hnew : x.roster.members = new := by rw [hkeeps.roster, members, List.nil_append]
    refine .unmade split ?_ (board.houses hkeeps) ?_ (List.mem_append_left _ called) product
    · rw [hkeeps.roster, board.names, List.nil_append]
    · rw [ofMembers_append, trace, hdown, hnew, members, List.nil_append, List.append_assoc]
      rfl
  | @aborted before after s new report split board members trace component token fatal =>
    have hnodup : ((before ++ [s]).map (·.name)).Nodup := by
      rw [List.map_append, List.map_singleton, ← List.concat_eq_append]
      exact (nodup_names_before hp split).1.concat (nodup_names_before hp split).2
    refine (meets_failed factoryFindsAll_of_mini hmay board hnodup hv').mono ?_
    rintro later _ x ⟨rfl, hdown, hkeeps⟩
    have hnew : x.roster.members = new := by rw [hkeeps.roster, members, List.nil_append]
    refine .aborted split ?_ (board.houses hkeeps) ?_ component token fatal
    · rw [hkeeps.roster, board.names, List.nil_append]
    · rw [ofMembers_append, trace, hdown, hnew, members, List.nil_append]

theorem meets_start_of_error {fault : Fault}
    (hplan : (registry.plan config.context).2 = .error fault) :
    Meets (founding config fun _ _ => False) (start registry config)
      (fun calls r _ => r = .error fault ∧ calls = []) w := by
  rcases hsplit : registry.plan config.context with ⟨notes, planned⟩
  obtain rfl : planned = .error fault := by rwa [hsplit] at hplan
  simp only [start, hsplit]
  refine Meets.modify fun a ha => ⟨.inl (World.keeps_notes (fun _ => True) _ a).config, ?_⟩
  exact Meets.pure fun _ _ => ⟨rfl, rfl⟩

/-- As long as nobody else touches the fleet: without a plan a start ends with the fault of that and
calls nothing; with one, it ends with all components booted in the order of the plan, or with the
fault of the first one that fails, when those before it are torn down in reverse. And no factory is
ever called that does not find all that it needs. -/
theorem start_boots_in_order {ds : List (Registry.Descriptor (Factory K))}
    (hregistry : Registry.empty.registerAll ds = .ok registry)
    (hpolicy : config.abortPolicy = .propagate) {others : World K → World K → Prop}
    (hothers : ∀ u v, others u v → World.Keeps (fun _ => True) u v) (w : World K) :
    Yields others (start registry config) w (fun calls r v =>
      match (registry.plan config.context).2 with
      | .error fault => r = .error fault ∧ calls = []
      | .ok p => Started p calls v r) ∧
    ∀ calls q v, Runs others (start registry config) w calls q v → ∀ call ∈ calls,
      ∃ p, (registry.plan config.context).2 = .ok p ∧
        FactoryFindsAll p (registry.blueprints config.context) call.1 call.2 := by
  have hr : registry.names.Nodup := Registry.nodup_names_registerAll hregistry List.nodup_nil
  have hexit : ¬ config.abortPolicy = .exit := by rw [hpolicy]; exact Config.AbortPolicy.noConfusion
  rcases hplan : (registry.plan config.context).2 with fault | p
  · have hmeets := meets_start_of_error (w := w) hplan
    refine ⟨hmeets.yields hothers hexit, fun calls q v run call hcall => ?_⟩
    exact (((run.weaken hothers).meets hmeets).2.1 call hcall).elim
  · have hmeets := meets_start (w := w) hr hplan
    refine ⟨hmeets.yields hothers hexit, fun calls q v run call hcall => ⟨p, rfl, ?_⟩⟩
    exact ((run.weaken hothers).meets hmeets).2.1 call hcall

/-- A component that does nothing, made by a factory that always succeeds. -/
def idle (name : String) (dependencies : List String) :
    Registry.Descriptor (Factory Rehearsal.kit) :=
  let factory : Factory Rehearsal.kit := fun _ => { product := .ok { service := .unfinished name } }
  { Registry.Blueprint.concrete name factory with dependencies }

/-- A cache that depends on a store, and is described before it. -/
def cacheAndStore : Registry Rehearsal.kit := ⟨[idle "cache" ["store"], idle "store" []]⟩

theorem registerAll_cacheAndStore :
    Registry.empty.registerAll [idle "cache" ["store"], idle "store" []] = .ok cacheAndStore := rfl

theorem start_boots_in_order_cacheAndStore :
    Yields (World.Keeps fun _ => True) (start cacheAndStore {}) {} fun calls r v =>
      match (cacheAndStore.plan ({} : Config).context).2 with
      | .error fault => r = .error fault ∧ calls = []
      | .ok p => Started p calls v r :=
  (start_boots_in_order registerAll_cacheAndStore rfl (fun _ _ h => h) {}).1

example : (alone (start cacheAndStore {}) {}).map (fun run => (ofMembers run.1, run.2.1)) =
    some ([.factory "store", .build 0 .boot, .factory "cache", .build 1 .boot], .ok ()) := rfl

end Steward.Fleet
