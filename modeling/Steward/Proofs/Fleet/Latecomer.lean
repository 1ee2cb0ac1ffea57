import Steward.Proofs.Fleet.Addressing
import Steward.Proofs.Registry.Addition
/-!
A component that comes late, and the same component planned with all the others. Both ways it is
the last member, and it is tied to the same members; but a plan counts a component that it depends
on once, and a late component as often as it is declared.
-/
namespace Steward

open Steward.Action

variable {K : Kit}

namespace Fleet

variable {registry full : Registry K} {ds : List (Registry.Descriptor (Factory K))}
  {d : Registry.Descriptor (Factory K)} {config : Config} {p q : Registry.Plan (Factory K)}
  {u v w : World K}

def upholding (Inv : World K → Prop)
    (hInv : ∀ {v w}, World.Keeps (fun _ => False) v w → Inv v → Inv w) : Terms K :=
  { steady with
    own := fun v w => Inv v → Inv w
    own_of_others := fun h => hInv h
    own_trans := fun huv hvw h => hvw (huv h) }

structure Staffed (config : Config) (p : Registry.Plan (Factory K)) (w : World K) : Prop where
  config : w.config = config
  duties : ∀ m ∈ w.roster.members, ∃ s ∈ p.steps, s.name = m.name ∧ s.isManager = m.isManager

theorem Staffed.keeps (h : World.Keeps (fun _ => False) v w) (hv : Staffed config p v) :
    Staffed config p w :=
  ⟨h.config.trans hv.config, h.roster ▸ hv.duties⟩

def staffing (config : Config) (p : Registry.Plan (Factory K)) : Terms K :=
  upholding (Staffed config p) Staffed.keeps

theorem Steady.staffing {α : Type} {program : Action K α} (h : Steady program) (w : World K) :
    Meets (staffing config p) program (fun _ _ _ => True) w :=
  (h w).relax (fun _ _ h => h) (fun _ _ h => Staffed.keeps h) (fun _ _ h => h) fun h => h

theorem Staffed.join {s : Step K} (h : Staffed config p w) (hs : s ∈ p.steps)
    (product : Product K) : Staffed config p (join s product w) where
  config := h.config
  duties m hm := by
    rcases List.mem_append.1 hm with hm | hm
    · exact h.duties m hm
    · rw [List.mem_singleton.1 hm]
      exact ⟨s, hs, rfl, rfl⟩

theorem staffing_boot {s : Step K} (hs : s ∈ p.steps) (w : World K) :
    Meets (staffing config p) (boot s) (fun _ _ _ => True) w := by
  have hmake : Meets (staffing config p) (make s) (fun _ _ _ => True) w := by
    refine Meets.invoke fun u _ => ⟨trivial, Meets.modify fun v _ => ?_⟩
    refine ⟨Staffed.keeps (World.keeps_notes _ _ v), ?_⟩
    split
    · exact Meets.pure fun _ _ => trivial
    · rename_i product _
      refine Meets.getModify fun x _ => ⟨fun hx => ?_, ?_⟩
      · split
        · exact hx
        · exact hx.join hs product
      · dsimp only
        split <;> exact Meets.pure fun _ _ => trivial
  refine Meets.seq hmake fun _ r v _ _ => ?_
  cases r with
  | error fault => exact Meets.pure fun _ _ => trivial
  | ok cell =>
    refine Meets.seq ((Steady.build cell .boot).staffing v) fun _ r x _ _ => ?_
    cases r with
    | error fault => exact Meets.pure fun _ _ => trivial
    | ok report =>
      refine Meets.modify fun y _ => ⟨fun hy => ⟨hy.config, hy.duties⟩, ?_⟩
      exact Meets.pure fun _ _ => trivial

theorem staffing_bootAll {steps : List (Step K)} (hsteps : steps ⊆ p.steps) (w : World K) :
    Meets (staffing config p) (bootAll steps) (fun _ _ _ => True) w := by
  induction steps generalizing w with
  | nil => exact Meets.pure fun _ _ => trivial
  | cons s steps ih =>
    obtain ⟨hs, hsteps⟩ := List.cons_subset.1 hsteps
    refine Meets.seq (staffing_boot hs w) fun _ r v _ _ => ?_
    cases r with
    | error fault => exact Meets.pure fun _ _ => trivial
    | ok report => exact ih hsteps v

theorem meets_start_staffed (hplan : (registry.plan config.context).2 = .ok p) (w : World K) :
    Meets (staffing config p) (start registry config)
      (fun _ r v => r = .ok () → Staffed config p v) w := by
  rcases hsplit : registry.plan config.context with ⟨notes, planned⟩
  obtain rfl : planned = .ok p := by rwa [hsplit] at hplan
  simp only [start, hsplit]
  refine Meets.modify fun a _ => ⟨Staffed.keeps (World.keeps_notes _ _ a), ?_⟩
  refine Meets.modify fun b _ => ⟨Staffed.keeps (World.keeps_reports _ _ b), ?_⟩
  refine Meets.modify fun c _ => ?_
  have hfound : Staffed config p (found config p c) := ⟨rfl, by simp [found]⟩
  refine ⟨fun _ => hfound, Meets.report fun e he => ⟨Staffed.keeps (World.keeps_report e _), ?_⟩⟩
  refine Meets.get fun f hf => ?_
  have hstart : Staffed config p f := ((hfound.keeps he).keeps (World.keeps_report e _)).keeps hf
  refine Meets.seq (staffing_bootAll (List.Subset.refl _) f) fun _ r x hx _ => ?_
  cases r with
  | ok _ =>
    refine Meets.modify fun y hy => ?_
    exact ⟨Staffed.keeps (World.keeps_report y _), Meets.pure fun z hz _ =>
      ((((hx hstart).keeps hy).keeps (World.keeps_report y _)).keeps hz)⟩
  | error fault =>
    refine Meets.seq ((Steady.onAbort fault).staffing x) fun _ _ y _ _ => ?_
    refine Meets.report fun z _ => ⟨Staffed.keeps (World.keeps_report z _), ?_⟩
    have hdiscard : (discard shutdown : Action K Unit) = shutdown >>= fun _ => pure () := rfl
    rw [hdiscard, bind_assoc]
    refine Meets.seq (Steady.shutdown.staffing _) fun _ _ _ _ _ => ?_
    exact Meets.pure fun _ _ hok => by cases hok

theorem Founded.staffed (hplan : (registry.plan config.context).2 = .ok p)
    (h : Founded registry config w) : Staffed config p w := by
  obtain ⟨v, calls, run⟩ := h
  have run' : Runs (World.Keeps fun _ => False) (start registry config) v calls (.done (.ok ()))
      w := run.weaken fun _ _ h => ⟨h.roster, h.config, h.cells.mono fun _ h => h.elim⟩
  exact run'.ends (meets_start_staffed hplan v) rfl

theorem lateDependencies_eq {r : Roster} (name : String) {names : List String}
    (h : ∀ n ∈ names, (r.member? (r.dealias n)).isSome = true ∧
      r.skipped? (r.dealias n) = none) :
    lateDependencies (K := K) r name names = .inr (names.map r.dealias) := by
  induction names with
  | nil => rfl
  | cons n names ih =>
    obtain ⟨⟨hmember, hskipped⟩, hrest⟩ := List.forall_mem_cons.1 h
    obtain ⟨m, hm⟩ := Option.isSome_iff_exists.1 hmember
    simp only [lateDependencies, hskipped, hm, ih hrest, List.map_cons]

theorem lateLinks_eq {r : Roster} (name : String) {links : List Link}
    (h : ∀ l ∈ links, (r.member? (r.dealias l.target)).isSome = true) :
    lateLinks r name links = .ok (links.map fun l => { l with target := r.dealias l.target }) := by
  induction links with
  | nil => rfl
  | cons l links ih =>
    obtain ⟨hmember, hrest⟩ := List.forall_mem_cons.1 h
    have hsome : (r.member? (r.dealias l.target)).isNone = false := by
      rw [Option.isNone_eq_false_iff, hmember]
    simp only [lateLinks, hsome, ih hrest]
    rfl

/-- The step of a component that comes late: each component that it depends on is counted as often
as it is declared. -/
def lateStep (d : Registry.Descriptor (Factory K)) (r : Roster) (ctx : Context)
    (factory : Factory K) (isManager : Bool) : Step K where
  name := d.name
  dependencies := (d.effective ctx).dependencies.map r.dealias
  links := (d.effective ctx).links.map fun l => { l with target := r.dealias l.target }
  isManager := isManager
  factory := factory

theorem receive_eq_welcome {factory : Factory K} {isManager : Bool} (hcheck : d.check = .ok ())
    (hmember : w.roster.member? d.name = none) (hskipped : w.roster.skipped? d.name = none)
    (hkind : (d.effective w.config.context).kind = .concrete factory isManager)
    (hcondition : (d.effective w.config.context).condition.holds w.config.context = true)
    (hrunning : ∀ n ∈ (d.effective w.config.context).references,
      (w.roster.member? (w.roster.dealias n)).isSome = true ∧
        w.roster.skipped? (w.roster.dealias n) = none) :
    receive w d = ((d.effective w.config.context).condition.notes,
      .welcome (lateStep d w.roster w.config.context factory isManager)) := by
  have hdependencies := lateDependencies_eq (K := K) d.name fun n hn =>
    hrunning n (List.mem_append_left _ hn)
  have hlinks := lateLinks_eq (r := w.roster) d.name fun l hl =>
    (hrunning l.target (List.mem_append_right _ (List.mem_map_of_mem hl))).1
  simp [receive, hcheck, hmember, hskipped, hkind, hdependencies, hlinks, hcondition, lateStep]

theorem receive_congr (hroster : w.roster = v.roster) (hconfig : w.config = v.config) :
    receive w d = receive v d := by
  simp only [receive, hroster, hconfig]

def enrolled (s : Step K) (cell : CellId) (r : Roster) : Roster :=
  { r with
    members := r.members ++ [⟨s.name, cell, s.dependencies, s.links, s.isManager⟩]
    order := r.order ++ [s.name] }

/-- How booting a step ends whose name is free: with a member more, or with what its factory or its
first build pass has failed by. -/
inductive Boots (s : Step K) (r : Roster) (calls : Calls K) : Except Fault Report → Roster → Prop
  | booted {cell : CellId} {report : Report} :
      Boots s r calls (.ok report)
        { enrolled s cell r with bootReports := r.bootReports ++ [report] }
  | unmade {x : World K} {fault : Fault} (called : (.factory s.name, x) ∈ calls)
      (product : (s.factory ⟨s.name, x⟩).product = .error fault) :
      Boots s r calls (.error fault) r
  | aborted {cell : CellId} {report : Report} (component : report.component = s.name)
      (fatal : report.outcome.isFatal = true) :
      Boots s r calls (.error (.buildAborted s.name (report.message.getD ""))) (enrolled s cell r)

theorem Boots.append {s : Step K} {r r' : Roster} {calls : Calls K} {a : Except Fault Report}
    (h : Boots s r calls a r') (before after : Calls K) :
    Boots s r (before ++ calls ++ after) a r' := by
  cases h with
  | booted => exact .booted
  | unmade called product => exact .unmade (by simp [called]) product
  | aborted component fatal => exact .aborted component fatal

theorem roster_join (s : Step K) (product : Product K) (w : World K) :
    (join s product w).roster = enrolled s w.cells.size w.roster := rfl

theorem meets_make_free {s : Step K} (hfree : w.roster.member? s.name = none)
    (hskipped : w.roster.skipped? s.name = none)
    (hneeds : ∀ n ∈ s.needs, (w.roster.member? n).isSome = true) :
    Meets advancing (make s) (fun calls r v =>
      (∃ cell, r = .ok cell ∧ v.roster = enrolled s cell w.roster ∧ v.Houses cell s.name) ∨
      ∃ fault x, r = .error fault ∧ v.roster = w.roster ∧ calls = [(.factory s.name, x)] ∧
        (s.factory ⟨s.name, x⟩).product = .error fault) w := by
  refine Meets.invoke fun u hu => ⟨trivial, Meets.modify fun v hv => ?_⟩
  have hnotes : World.Keeps (fun _ => False) v ((s.factory ⟨s.name, u⟩).notes.foldl World.note v) :=
    World.keeps_notes _ _ v
  refine ⟨advances_of_keeps hnotes, ?_⟩
  have hkeeps := hu.trans (hv.trans hnotes)
  rcases hproduct : (s.factory ⟨s.name, u⟩).product with fault | product
  · exact Meets.pure fun x hx => .inr ⟨fault, u, rfl, (hkeeps.trans hx).roster, rfl, hproduct⟩
  · refine Meets.getModify fun x hx => ?_
    have hroster : x.roster = w.roster := (hkeeps.trans hx).roster
    refine ⟨advances_join (hroster ▸ hskipped) (hroster ▸ hneeds), ?_⟩
    simp only [hroster, hfree, Option.isSome_none, Bool.false_eq_true, if_false]
    refine Meets.pure fun y hy => .inl ⟨x.cells.size, rfl, ?_, ?_⟩
    · rw [hy.roster, roster_join, hroster]
    · exact hy.cells.houses (houses_join s product x)

theorem meets_boot_free {s : Step K} (hfree : w.roster.member? s.name = none)
    (hskipped : w.roster.skipped? s.name = none)
    (hneeds : ∀ n ∈ s.needs, (w.roster.member? n).isSome = true) :
    Meets advancing (boot s) (fun calls r v => Boots s w.roster calls r v.roster) w := by
  refine Meets.seq (meets_make_free hfree hskipped hneeds) fun first r v _ hmade => ?_
  rcases hmade with ⟨cell, rfl, hroster, hhouses⟩ | ⟨fault, x, rfl, hroster, rfl, hproduct⟩
  · have hbuild : Meets advancing (Cell.build cell .boot) (fun calls r x =>
        World.Keeps (fun _ => False) v x ∧
          (Cell.CallsOf (.build cell .boot) cell v (ofMembers calls) ∧
            ∃ name, Answers name .boot r ∧ ∀ n, v.Houses cell n → name = n)) v :=
      advancing_of_steady (Cell.meets_build hosts_steady .boot fun _ _ => trivial)
    refine Meets.seq hbuild fun _ r x _ hbuilt => ?_
    obtain ⟨hx, -, n, hanswer, hn⟩ := hbuilt
    obtain rfl := hn s.name hhouses
    rcases r with fault | report
    · obtain ⟨report, hcomponent, -, hfatal, rfl⟩ := hanswer.of_error
      refine Meets.pure fun y hy => ?_
      rw [hy.roster, hx.roster, hroster]
      exact .aborted hcomponent hfatal
    · refine Meets.modify fun y hy => ⟨advances_passed report y, Meets.pure fun z hz => ?_⟩
      rw [hz.roster, hy.roster, hx.roster, hroster]
      exact .booted
  · refine Meets.pure fun y hy => ?_
    rw [hy.roster, hroster]
    exact .unmade (by simp) hproduct

theorem meets_register_welcome {notes : List String} {s : Step K}
    (hreceive : receive w d = (notes, .welcome s)) :
    Meets advancing (register d) (fun calls r v => Boots s w.roster calls r v.roster) w := by
  obtain ⟨hfree, hskipped⟩ := free_of_receive hreceive (by simp)
  obtain ⟨hname, hneeds⟩ := needs_of_receive hreceive
  rw [← hname] at hfree hskipped
  refine Meets.get fun v hv => ?_
  rw [receive_congr hv.roster hv.config, hreceive]
  refine Meets.modify fun x hx => ⟨advances_of_keeps (World.keeps_notes _ _ x), ?_⟩
  refine Meets.report fun y hy => ⟨advances_of_keeps (World.keeps_report y _), ?_⟩
  have hroster : (y.report (.registering d.name)).roster = w.roster :=
    (hv.trans (hx.trans ((World.keeps_notes _ notes x).trans
      (hy.trans (World.keeps_report y _))))).roster
  have hfree' : w.roster.member? s.name = none := by
    rwa [← Roster.member?_isSome_iff, Option.not_isSome_iff_eq_none] at hfree
  refine Meets.seq (meets_boot_free (hroster ▸ hfree') (hroster ▸ hskipped) (hroster ▸ hneeds))
    fun calls r z _ hz => ?_
  refine (advancing_of_steady (meets_checkAbort r)).mono fun later r' a ha => ?_
  obtain ⟨hkeeps, rfl⟩ := ha
  rw [hkeeps.roster]
  rw [hroster] at hz
  simpa using hz.append [] later

structure Late (registry full : Registry K) (d : Registry.Descriptor (Factory K))
    (config : Config) (w : World K) : Prop where
  nodup : full.names.Nodup
  descriptors : full.descriptors = registry.descriptors ++ [d]
  check : d.check = .ok ()
  isConcrete : (d.effective config.context).isAbstract = false
  condition : (d.effective config.context).condition.holds config.context = true
  /-- The fleet was started without the component. -/
  founded : Founded registry config w
  /-- Whatever the component refers to is a member. -/
  running : ∀ n ∈ (d.effective config.context).references,
    (w.roster.member? (w.roster.dealias n)).isSome = true

theorem Late.names_eq (h : Late registry full d config w) :
    full.names = registry.names ++ [d.name] := by
  rw [Registry.names, h.descriptors, List.map_append]
  rfl

theorem Late.nodup_names (h : Late registry full d config w) : registry.names.Nodup := by
  have hnodup := h.nodup
  rw [h.names_eq] at hnodup
  exact (List.nodup_append.1 hnodup).1

theorem Late.not_mem_names (h : Late registry full d config w) : d.name ∉ registry.names := by
  have hnodup := h.nodup
  rw [h.names_eq] at hnodup
  exact fun hmem => (List.nodup_append.1 hnodup).2.2 _ hmem d.name (by simp) rfl

theorem Late.exists_kind (h : Late registry full d config w) : ∃ factory isManager,
    (d.effective config.context).kind = .concrete factory isManager := by
  have hconcrete := h.isConcrete
  unfold Registry.Blueprint.isAbstract at hconcrete
  split at hconcrete
  · cases hconcrete
  · exact ⟨_, _, ‹_›⟩

theorem Late.free (h : Late registry full d config w) :
    w.roster.member? d.name = none ∧ w.roster.skipped? d.name = none := by
  obtain ⟨p, hplan, board⟩ := h.founded.planned h.nodup_names
  have hnot : ¬ (d.name ∈ p.order ∨ d.name ∈ Registry.namesOf p.skipped) := by
    rw [(Registry.sound_plan h.nodup_names hplan).mem_iff]
    rintro ⟨b, hb, hname, -⟩
    refine h.not_mem_names ?_
    rw [← Registry.names_blueprints registry config.context, ← hname]
    exact List.mem_map_of_mem hb
  rw [not_or] at hnot
  constructor
  · rw [← Option.not_isSome_iff_eq_none, Roster.member?_isSome_iff, board.names]
    exact hnot.1
  · rw [Roster.skipped?_isNone_iff, board.skipped]
    exact hnot.2

theorem Late.receive_eq (h : Late registry full d config w) {factory : Factory K}
    {isManager : Bool} (hkind : (d.effective config.context).kind = .concrete factory isManager) :
    receive w d = ((d.effective config.context).condition.notes,
      .welcome (lateStep d w.roster config.context factory isManager)) := by
  obtain ⟨p, hplan, board⟩ := h.founded.planned h.nodup_names
  have hordered := board.ordered (Registry.sound_plan h.nodup_names hplan)
  have hconfig : w.config = config := (h.founded.staffed hplan).config
  subst hconfig
  refine receive_eq_welcome h.check h.free.1 h.free.2 hkind h.condition fun n hn => ?_
  have hmember := h.running n hn
  exact ⟨hmember, hordered.unskipped _ ((hordered.mem_order_iff _).2 hmember)⟩

theorem Late.plan_eq (h : Late registry full d config w) {factory : Factory K} {isManager : Bool}
    (hkind : (d.effective config.context).kind = .concrete factory isManager)
    (hp : (registry.plan config.context).2 = .ok p) (hq : (full.plan config.context).2 = .ok q) :
    q = { p with
      steps := p.steps ++ [(d.effective config.context).step p.aliases factory isManager] } := by
  obtain ⟨p', hp', board⟩ := h.founded.planned h.nodup_names
  obtain rfl : p = p' := Except.ok.inj (hp.symm.trans hp')
  refine Registry.plan_concat h.descriptors h.nodup hp hq hkind h.condition fun n hn => ?_
  have hmember := h.running n hn
  rw [Roster.member?_isSome_iff, board.names, Roster.dealias, board.aliases] at hmember
  exact hmember

theorem Late.dealias_name (h : Late registry full d config w) :
    w.roster.dealias d.name = d.name := by
  rw [(h.founded.stems h.nodup_names).dealias]
  by_contra hne
  obtain ⟨a, ha, hname, -⟩ := Registry.exists_abstract_of_meaning_ne hne
  refine h.not_mem_names ?_
  rw [← Registry.names_blueprints registry config.context, ← hname]
  exact List.mem_map_of_mem ha

theorem member?_enrolled {s : Step K} {cell : CellId} {r : Roster} (h : r.member? s.name = none) :
    (enrolled s cell r).member? s.name =
      some ⟨s.name, cell, s.dependencies, s.links, s.isManager⟩ := by
  rw [Roster.member?] at h
  simp [enrolled, Roster.member?, h]

/-- A fleet that a component has joined late, beside one that it was planned with. -/
structure StandsAsPlanned (d : Registry.Descriptor (Factory K)) (meaning : String → String)
    (ctx : Context) (late planned : Roster) : Prop where
  order : late.order = planned.order
  skipped : late.skipped = planned.skipped
  aliases : late.aliases = planned.aliases
  member : ∃ m n, late.member? d.name = some m ∧ planned.member? d.name = some n ∧
    m.links = n.links ∧ m.isManager = n.isManager
  /-- Each dependency as it is declared, by what it means. -/
  lateDependencies : late.dependenciesOf d.name =
    .ok ((d.effective ctx).dependencies.map meaning)
  plannedDependencies : planned.dependenciesOf d.name =
    .ok (Registry.distinct ((d.effective ctx).dependencies.map meaning))

theorem Late.standsAsPlanned (h : Late registry full d config u) {factory : Factory K}
    {isManager : Bool} (hkind : (d.effective config.context).kind = .concrete factory isManager)
    {calls : Calls K} {report : Report} {late : Roster}
    (hlate : Boots (lateStep d u.roster config.context factory isManager) u.roster calls
      (.ok report) late) (hw : Founded full config w) :
    StandsAsPlanned d u.roster.dealias config.context late w.roster := by
  obtain ⟨p, hp, uboard⟩ := h.founded.planned h.nodup_names
  obtain ⟨q, hq, wboard⟩ := hw.planned h.nodup
  have hstaffed := hw.staffed hq
  obtain rfl := h.plan_eq hkind hp hq
  have hdealias : Registry.dealias p.aliases = u.roster.dealias := by
    funext name
    rw [Roster.dealias, uboard.aliases]
  set s := (d.effective config.context).step p.aliases factory isManager with hs
  have hname : s.name = d.name := Registry.Descriptor.effective_name d _
  have hnodup : ((p.steps ++ [s]).map (·.name)).Nodup :=
    (List.nodup_append.1 (Registry.sound_plan h.nodup hq).nodup).1
  obtain ⟨before, n, hmembers, -, hn⟩ := exists_concat_of_forall₂ wboard.members
  have hmem : n ∈ w.roster.members := by simp [hmembers]
  have hplanned : w.roster.member? d.name = some n := by
    rw [← hname, ← hn.name]
    refine Roster.member?_of_mem ?_ hmem
    rwa [wboard.names]
  have hmanager : n.isManager = isManager := by
    obtain ⟨s', hs', hname', hmanager⟩ := hstaffed.duties n hmem
    obtain rfl : s' = s :=
      List.inj_on_of_nodup_map hnodup hs' (by simp) (hname'.trans hn.name)
    exact hmanager.symm
  have hself : u.roster.dealias d.name = d.name := h.dealias_name
  have hself' : w.roster.dealias d.name = d.name := by
    rw [Roster.dealias, wboard.aliases, hdealias, hself]
  cases hlate with
  | @booted cell report =>
    set t := lateStep d u.roster config.context factory isManager
    have hjoined : (enrolled t cell u.roster).member? d.name = some _ := member?_enrolled h.free.1
    refine
      { order := ?_
        skipped := uboard.skipped.trans wboard.skipped.symm
        aliases := uboard.aliases.trans wboard.aliases.symm
        member := ⟨_, n, hjoined, hplanned, ?_, hmanager.symm⟩
        lateDependencies := ?_
        plannedDependencies := ?_ }
    · show u.roster.order ++ [d.name] = _
      rw [uboard.order, wboard.order, List.map_append, List.map_singleton, hname]
    · rw [hn.links]
      show (d.effective config.context).links.map _ = (d.effective config.context).links.map _
      rw [hdealias]
    · show (enrolled t cell u.roster).dependenciesOf d.name = _
      rw [Roster.dependenciesOf, show (enrolled t cell u.roster).dealias d.name = d.name from hself,
        hjoined]
      rfl
    · rw [Roster.dependenciesOf, hself', hplanned]
      show Except.ok n.dependencies = _
      rw [hn.dependencies]
      show Except.ok (Registry.distinct _) = _
      rw [hdealias]

/-- A component is registered late whose condition holds and all whose references are running. It
is never refused or left out: it joins as the last member unless its factory fails, and stays
unless its first build pass aborts. Then the fleet is like one that was planned with the component,
except that components which it depends on are counted as often as they are declared. -/
theorem latecomer_stands_as_planned (hregistry : Registry.empty.registerAll ds = .ok registry)
    (hfull : registry.register d = .ok full)
    (hconcrete : (d.effective config.context).isAbstract = false)
    (hcondition : (d.effective config.context).condition.holds config.context = true)
    (hfounded : Founded registry config u)
    (hrunning : ∀ n ∈ (d.effective config.context).references,
      (u.roster.member? (u.roster.dealias n)).isSome = true) :
    (∃ factory isManager, (d.effective config.context).kind = .concrete factory isManager ∧
      ∀ calls a v, Runs (World.Keeps fun _ => False) (register d) u calls (.done a) v →
        Boots (lateStep d u.roster config.context factory isManager) u.roster calls a v.roster) ∧
    ∀ calls report v w,
      Runs (World.Keeps fun _ => False) (register d) u calls (.done (.ok report)) v →
      Founded full config w →
        StandsAsPlanned d u.roster.dealias config.context v.roster w.roster ∧
        (v.roster.dependenciesOf d.name = w.roster.dependenciesOf d.name ↔
          ((d.effective config.context).dependencies.map u.roster.dealias).Nodup) := by
  have hr : registry.names.Nodup := Registry.nodup_names_registerAll hregistry List.nodup_nil
  obtain ⟨_, hcheck, hok⟩ := bind_eq_ok.1 hfull
  have hlate : Late registry full d config u :=
    { nodup := Registry.nodup_names_register hfull hr
      descriptors := by
        split at hok
        · cases hok
        · rw [← Except.ok.inj hok]
      check := hcheck
      isConcrete := hconcrete
      condition := hcondition
      founded := hfounded
      running := hrunning }
  obtain ⟨factory, isManager, hkind⟩ := hlate.exists_kind
  have hboots := meets_register_welcome (hlate.receive_eq hkind)
  refine ⟨⟨factory, isManager, hkind, fun calls a v run => run.ends hboots⟩,
    fun calls report v w run hw => ?_⟩
  have hstands := hlate.standsAsPlanned hkind (run.ends hboots) hw
  refine ⟨hstands, ?_⟩
  rw [hstands.lateDependencies, hstands.plannedDependencies, Except.ok.injEq, eq_comm,
    Registry.distinct_eq_self_iff]

theorem exists_runs_after {α : Type} {program : Action K (Except Fault α)}
    {others : World K → World K → Prop}
    (h : (alone program w).map (fun run => run.2.1.toBool) = some true) :
    ∃ calls a, Runs others program w calls (.done (.ok a)) (after program w) := by
  obtain ⟨⟨calls, r, v⟩, hrun, hr⟩ := Option.map_eq_some_iff.1 h
  rcases r with fault | a
  · cases hr
  · rw [after, hrun]
    exact ⟨calls, a, runs_alone hrun⟩

/-- A fleet of a cache and a store that an interface joins, or was planned with. -/
def withInterface (dependencies : List String) : Registry Rehearsal.kit :=
  ⟨cacheAndStore.descriptors ++ [idle "api" dependencies]⟩

theorem latecomer_stands_as_planned_api :
    let u := after (start cacheAndStore {}) {}
    let d := idle "api" ["cache", "store"]
    let v := after (register d) u
    let w := after (start (withInterface ["cache", "store"]) {}) {}
    v.roster.order = ["store", "cache", "api"] ∧ v.roster.order = w.roster.order ∧
      v.roster.dependenciesOf "api" = w.roster.dependenciesOf "api" := by
  intro u d v w
  have hu : Founded cacheAndStore {} u := founded_after rfl
  have hw : Founded (withInterface ["cache", "store"]) {} w := founded_after rfl
  have hrunning : ∀ n ∈ (d.effective ({} : Config).context).references,
      (u.roster.member? (u.roster.dealias n)).isSome = true := by decide +kernel
  obtain ⟨calls, report, run⟩ : ∃ calls report,
      Runs (World.Keeps fun _ => False) (register d) u calls (.done (.ok report))
        (after (register d) u) := exists_runs_after (by decide +kernel)
  obtain ⟨hstands, hsame⟩ := (latecomer_stands_as_planned registerAll_cacheAndStore rfl rfl rfl hu
    hrunning).2 calls report v w run hw
  exact ⟨by decide +kernel, hstands.order, hsame.2 (by decide +kernel)⟩

/-- An interface that is declared to depend on the store twice does so if it comes late, and once if
it is planned. -/
theorem latecomer_may_depend_twice :
    ¬ ∀ (d : Registry.Descriptor (Factory Rehearsal.kit)) (full : Registry Rehearsal.kit)
      (u v w : World Rehearsal.kit) (calls : Calls Rehearsal.kit) (report : Report),
      cacheAndStore.register d = .ok full → (d.effective ({} : Config).context).isAbstract = false →
      (d.effective ({} : Config).context).condition.holds ({} : Config).context = true →
      Founded cacheAndStore {} u →
      (∀ n ∈ (d.effective ({} : Config).context).references,
        (u.roster.member? (u.roster.dealias n)).isSome = true) →
      Runs (World.Keeps fun _ => False) (register d) u calls (.done (.ok report)) v →
      Founded full {} w → v.roster.dependenciesOf d.name = w.roster.dependenciesOf d.name := by
  intro hall
  let u := after (start cacheAndStore {}) {}
  let d := idle "api" ["store", "store"]
  obtain ⟨calls, report, run⟩ : ∃ calls report,
      Runs (World.Keeps fun _ => False) (register d) u calls (.done (.ok report))
        (after (register d) u) := exists_runs_after (by decide +kernel)
  have hsame := hall d (withInterface ["store", "store"]) u _
    (after (start (withInterface ["store", "store"]) {}) {}) calls report rfl rfl rfl
    (founded_after rfl) (by decide +kernel) run (founded_after rfl)
  have htwice : (after (register d) u).roster.dependenciesOf d.name =
      .ok ["store", "store"] := by decide +kernel
  have honce :
      (after (start (withInterface ["store", "store"]) {}) {}).roster.dependenciesOf d.name =
        .ok ["store"] := by decide +kernel
  rw [htwice, honce] at hsame
  exact absurd (Except.ok.inj hsame) (by decide)

end Fleet

end Steward
