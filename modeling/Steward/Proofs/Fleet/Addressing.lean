import Steward.Proofs.Fleet.Following
import Steward.Proofs.Registry.Pruning
/-!
What the names of a running fleet lead to. Every member has a cell of its own, and a name leads to
the member that bears it, unless the name is abstract. No member has an abstract name after a
start, but one that comes late may take one: names of members and of components that were left out
are refused to it, abstract names are not.
-/
namespace Steward

open Steward.Action

variable {K : Kit}

namespace Roster

variable {r : Roster} {name : String} {cell : CellId}

theorem find_eq_ok_iff :
    r.find name = .ok cell ↔ ∃ m, r.member? (r.dealias name) = some m ∧ m.cell = cell := by
  unfold find
  dsimp only
  rcases hm : r.member? (r.dealias name) with _ | m
  · cases r.skipped? (r.dealias name) <;> simp
  · simp

theorem find_name_eq_iff (h : r.Ordered) (hcells : (r.members.map (·.cell)).Nodup) {m : Member}
    (hm : m ∈ r.members) : r.find m.name = .ok m.cell ↔ r.dealias m.name = m.name := by
  have hnames : (r.members.map (·.name)).Nodup := h.names ▸ h.nodup
  rw [find_eq_ok_iff]
  constructor
  · rintro ⟨m', hm', hcell⟩
    obtain ⟨hmem, hname⟩ := mem_of_member? hm'
    obtain rfl := List.inj_on_of_nodup_map hcells hmem hm hcell
    exact hname.symm
  · intro hname
    exact ⟨m, hname.symm ▸ member?_of_mem hnames hm, rfl⟩

end Roster

namespace Fleet

variable {v w : World K}

def watching : Terms K := { steady with may := fun _ _ => False, mayExit := False }

/-- An answer tells of a cell as it is in a world that may be come to from this one. -/
def TellsOf {α : Type} (w : World K) (cell : CellId) (f : Cell K → α) (r : Except Fault α) :
    Prop :=
  ∃ u c, World.Keeps (fun _ => False) w u ∧ u.cell? cell = some c ∧ r = .ok (f c)

/-- Whatever is asked of a member by its name is asked of its own component. -/
structure AnswersToName (w : World K) (m : Member) : Prop where
  finds : w.roster.find m.name = .ok m.cell
  status : Yields (World.Keeps fun _ => False) (Fleet.status m.name) w fun _ r _ =>
    TellsOf w m.cell (·.standing.status) r
  snapshot : Yields (World.Keeps fun _ => False) (Fleet.snapshot m.name) w fun _ r _ =>
    TellsOf w m.cell Cell.snapshot r
  target : ∀ change : Change, change.component = m.name → change.id = none →
    Yields (World.Keeps fun _ => False) (Fleet.target change) w fun _ r _ => r = .ok m.cell
  visits : ∀ op start token, ∀ visit ∈ (Link.route w.roster.topology op start token).visits,
    visit.name = m.name → visit.found = m.cell

theorem meets_reading {α : Type} {cell : CellId} {name : String} (hw : w.Houses cell name)
    (f : Option (Cell K) → α) :
    Meets watching (reading cell f) (fun _ a _ => TellsOf w cell (fun c => f (some c)) (.ok a))
      w := by
  refine Meets.acquire (Meets.get fun v hv => Meets.release (Meets.pure fun _ _ => ?_))
  obtain ⟨c, hc, -⟩ := hv.cells.houses hw
  exact ⟨v, c, hv, hc, by rw [hc]⟩

theorem TellsOf.of_keeps {α : Type} {cell : CellId} {f : Cell K → α} {r : Except Fault α}
    (h : TellsOf v cell f r) (hv : World.Keeps (fun _ => False) w v) : TellsOf w cell f r := by
  obtain ⟨u, c, hu, hc, hr⟩ := h
  exact ⟨u, c, hv.trans hu, hc, hr⟩

theorem meets_snapshot {name : String} {cell : CellId} (hfind : w.roster.find name = .ok cell)
    (hw : ∃ n, w.Houses cell n) :
    Meets watching (snapshot name) (fun _ r _ => TellsOf w cell Cell.snapshot r) w := by
  obtain ⟨n, hn⟩ := hw
  refine Meets.get fun v hv => ?_
  rw [hv.roster, hfind]
  refine Meets.seq (meets_reading (hv.cells.houses hn) _) fun _ s u _ hs => ?_
  exact Meets.pure fun _ _ => hs.of_keeps hv

theorem answersToName_of_find (ho : w.roster.Ordered) (hw : Housed w) {m : Member}
    (hm : m ∈ w.roster.members) (hfind : w.roster.find m.name = .ok m.cell) :
    AnswersToName w m where
  finds := hfind
  status := by
    have hmeets : Meets watching (Fleet.status m.name)
        (fun _ r _ => TellsOf w m.cell (·.standing.status) r) w := by
      refine Meets.get fun v hv => ?_
      rw [hv.roster, hfind]
      have hhouses := hv.cells.houses (hw.houses m hm)
      refine Meets.seq (meets_reading hhouses _) fun _ s u _ hs => ?_
      exact Meets.pure fun _ _ => hs.of_keeps hv
    exact hmeets.yields (fun _ _ h => h) fun h => h
  snapshot := (meets_snapshot hfind ⟨_, hw.houses m hm⟩).yields (fun _ _ h => h) fun h => h
  target change hcomponent hid := by
    have hmeets : Meets watching (Fleet.target change) (fun _ r _ => r = .ok m.cell) w := by
      refine Meets.get fun v hv => ?_
      rw [hv.roster, hcomponent, hfind, hid]
      exact Meets.pure fun _ _ => rfl
    exact hmeets.yields (fun _ _ h => h) fun h => h
  visits op start token visit hvisit hname := by
    have hfound := (Link.found_of_mem_route ho.complete_topology hvisit).2
    rw [hname] at hfound
    exact Except.ok.inj (hfound.symm.trans hfind)

theorem meets_snapshotsOf {names : List String}
    (h : ∀ n ∈ names, ∃ cell, w.roster.find n = .ok cell ∧ w.Houses cell n) :
    Meets watching (snapshotsOf names) (fun _ ss _ => ss.map (·.name) = names) w := by
  induction names generalizing w with
  | nil => exact Meets.pure fun _ _ => rfl
  | cons name names ih =>
    obtain ⟨⟨cell, hfind, hhouses⟩, hrest⟩ := List.forall_mem_cons.1 h
    refine Meets.seq (meets_snapshot hfind ⟨_, hhouses⟩) fun _ r v hv hr => ?_
    obtain ⟨u, c, hu, hc, rfl⟩ := hr
    refine Meets.seq (ih fun n hn => ?_) fun _ ss x _ hss => Meets.pure fun _ _ => ?_
    · obtain ⟨cell', hfind', hhouses'⟩ := hrest n hn
      exact ⟨cell', hv.roster ▸ hfind', hv.cells.houses hhouses'⟩
    · obtain ⟨c', hc', hname, -⟩ := hu.cells.houses hhouses
      obtain rfl : c = c' := Option.some.inj (hc.symm.trans hc')
      rw [List.map_cons, hss]
      exact congrArg (· :: names) hname

theorem meets_snapshots (ho : w.roster.Ordered)
    (h : ∀ m ∈ w.roster.members, w.roster.find m.name = .ok m.cell ∧ w.Houses m.cell m.name) :
    Meets watching snapshots (fun _ ss _ => ss.map (·.name) = w.roster.order) w := by
  refine Meets.get fun v hv => ?_
  rw [hv.roster]
  refine (meets_snapshotsOf fun n hn => ?_).mono fun _ _ _ hss => hss
  rw [← ho.names] at hn
  obtain ⟨m, hm, rfl⟩ := List.mem_map.1 hn
  exact ⟨m.cell, hv.roster ▸ (h m hm).1, hv.cells.houses (h m hm).2⟩

/-- No pass comes to one cell twice, if what it starts with stands for itself and all members
answer to their names. -/
theorem nodup_found_route (ho : w.roster.Ordered) (hw : Housed w)
    (h : ∀ m ∈ w.roster.members, w.roster.find m.name = .ok m.cell)
    {start : String} (hstart : w.roster.dealias start = start) (op : Link.Operation)
    (token : Token) :
    ((Link.route w.roster.topology op start token).visits.map (·.found)).Nodup := by
  have hext := (Link.extends_destination ho.complete_topology op start token).1
  have hnames : ((Link.route w.roster.topology op start token).visits.map (·.name)).Nodup :=
    (List.nodup_append.1 hext.sound.nodup).1
  have hmember : ∀ visit ∈ (Link.route w.roster.topology op start token).visits,
      ∃ m ∈ w.roster.members, m.name = visit.name ∧ m.cell = visit.found := by
    intro visit hvisit
    obtain ⟨hreaches, hfound⟩ := Link.found_of_mem_route ho.complete_topology hvisit
    have hself : w.roster.dealias visit.name = visit.name := by
      rcases Relation.ReflTransGen.cases_tail hreaches with heq | ⟨_, -, hlead⟩
      · rw [heq, hstart]
      · have hmem : visit.name ∈ w.roster.order := hlead.mem_names ho.complete_topology
        rw [← ho.names] at hmem
        obtain ⟨m, hm, hname⟩ := List.mem_map.1 hmem
        rw [← hname]
        exact (Roster.find_name_eq_iff ho hw.cells hm).1 (h m hm)
    obtain ⟨m, hm, hcell⟩ := Roster.find_eq_ok_iff.1 hfound
    rw [hself] at hm
    exact ⟨m, (Roster.mem_of_member? hm).1, (Roster.mem_of_member? hm).2, hcell⟩
  refine List.Nodup.map_on (fun x hx y hy hxy => ?_) hnames.of_map
  obtain ⟨m, hm, hname, hcell⟩ := hmember x hx
  obtain ⟨m', hm', hname', hcell'⟩ := hmember y hy
  obtain rfl : m = m' := List.inj_on_of_nodup_map hw.cells hm hm'
    (hcell.trans (hxy.trans hcell'.symm))
  exact List.inj_on_of_nodup_map hnames hx hy (hname.symm.trans hname')

theorem meets_register_taken {d : Registry.Descriptor (Factory K)}
    (h : (w.roster.member? d.name).isSome = true ∨ (w.roster.skipped? d.name).isSome = true) :
    Meets watching (register d) (fun calls r v => calls = [] ∧ v.roster = w.roster ∧
      ∃ fault, r = .error fault ∧ (d.check = .ok () → fault = .duplicateComponent d.name)) w := by
  refine Meets.get fun v hv => ?_
  have htaken : ((v.roster.member? d.name).isSome || (v.roster.skipped? d.name).isSome) = true := by
    rw [hv.roster, Bool.or_eq_true]
    exact h
  have hreceive : ∃ fault, receive v d = ([], .refused fault) ∧
      (d.check = .ok () → fault = .duplicateComponent d.name) := by
    simp only [receive]
    cases hcheck : d.check with
    | error fault => exact ⟨fault, rfl, fun h => by cases h⟩
    | ok _ => exact ⟨_, by dsimp only; rw [if_pos htaken], fun _ => rfl⟩
  obtain ⟨fault, hreceive, hfault⟩ := hreceive
  rw [hreceive]
  refine Meets.modify fun x hx => ⟨.refl _ x, Meets.pure fun y hy => ⟨rfl, ?_, fault, rfl, hfault⟩⟩
  exact (hv.trans (hx.trans hy)).roster

/-- What the names of a running fleet lead to, where some of them are abstract. -/
structure Addressed (isAbstract : String → Prop) (w : World K) : Prop where
  names : w.roster.members.map (·.name) = w.roster.order
  /-- Members have cells of their own. -/
  cells : (w.roster.members.map (·.cell)).Nodup
  houses : ∀ m ∈ w.roster.members, w.Houses m.cell m.name
  answers : ∀ m ∈ w.roster.members, AnswersToName w m ↔ ¬ isAbstract m.name
  /-- Each member is shown once, under its name. -/
  snapshots : (∀ m ∈ w.roster.members, ¬ isAbstract m.name) →
    Yields (World.Keeps fun _ => False) snapshots w fun _ ss _ => ss.map (·.name) = w.roster.order
  /-- No pass comes to a member twice. -/
  passes : (∀ m ∈ w.roster.members, ¬ isAbstract m.name) → ∀ op name token,
    ((Link.route w.roster.topology op (w.roster.dealias name) token).visits.map (·.found)).Nodup
  /-- The names of members and of components that were left out are refused. -/
  refuses : ∀ d : Registry.Descriptor (Factory K),
    (w.roster.member? d.name).isSome = true ∨ (w.roster.skipped? d.name).isSome = true →
      Yields (World.Keeps fun _ => False) (register d) w fun calls r v =>
        calls = [] ∧ v.roster = w.roster ∧
          ∃ fault, r = .error fault ∧ (d.check = .ok () → fault = .duplicateComponent d.name)
  /-- Who is registered is a member with a cell of its own, and is found in it unless its name is
  abstract. -/
  joins : ∀ (d : Registry.Descriptor (Factory K)) (report : Report) (calls : Calls K) (v : World K),
    Runs (World.Keeps fun _ => False) (register d) w calls (.done (.ok report)) v →
      ∃ m, v.roster.members = w.roster.members ++ [m] ∧ m.name = d.name ∧
        v.Houses m.cell d.name ∧ m.cell ∉ w.roster.members.map (·.cell) ∧
        (AnswersToName v m ↔ ¬ isAbstract d.name)

variable {registry : Registry K} {config : Config} {u : World K}

structure Stems (registry : Registry K) (config : Config) (w : World K) : Prop where
  ordered : w.roster.Ordered
  housed : Housed w
  dealias : w.roster.dealias =
    Registry.meaning (registry.blueprints config.context) config.context

theorem Stems.advances (h : Stems registry config v) (hvw : Advances v w) :
    Stems registry config w where
  ordered := hvw.ordered h.ordered
  housed := hvw.housed h.housed
  dealias := by
    rw [← h.dealias]
    funext name
    rw [Roster.dealias, hvw.aliases, Roster.dealias]

theorem Founded.stems (hr : registry.names.Nodup) (h : Founded registry config w) :
    Stems registry config w := by
  obtain ⟨p, hplan, board⟩ := h.planned hr
  refine ⟨board.ordered (Registry.sound_plan hr hplan), board.housed, ?_⟩
  rw [← Registry.dealias_of_plan hr hplan]
  funext name
  rw [Roster.dealias, board.aliases]

theorem Founded.not_isAbstract (hr : registry.names.Nodup) (h : Founded registry config w)
    {m : Member} (hm : m ∈ w.roster.members) :
    ¬ Registry.IsAbstract (registry.blueprints config.context) m.name := by
  obtain ⟨p, hplan, board⟩ := h.planned hr
  have hbs : ((registry.blueprints config.context).map (·.name)).Nodup := by
    rwa [Registry.names_blueprints]
  have hname : m.name ∈ p.order := by
    rw [Registry.Plan.order, ← board.names]
    exact List.mem_map_of_mem hm
  exact Registry.not_isAbstract_of_isConcrete hbs
    (((Registry.sound_plan hr hplan).mem_iff m.name).1 (.inl hname))

theorem Stems.answersToName_iff (h : Stems registry config w) (hr : registry.names.Nodup)
    (hplan : ∃ p, (registry.plan config.context).2 = .ok p) {m : Member}
    (hm : m ∈ w.roster.members) :
    AnswersToName w m ↔
      ¬ Registry.IsAbstract (registry.blueprints config.context) m.name := by
  have hbs : ((registry.blueprints config.context).map (·.name)).Nodup := by
    rwa [Registry.names_blueprints]
  rw [← ((Registry.exists_plan_iff hr).1 hplan).meaning_eq_iff hbs, ← h.dealias,
    ← Roster.find_name_eq_iff h.ordered h.housed.cells hm]
  exact ⟨(·.finds), answersToName_of_find h.ordered h.housed hm⟩

theorem Stems.addressed (h : Stems registry config w) (hr : registry.names.Nodup)
    (hplan : ∃ p, (registry.plan config.context).2 = .ok p) :
    Addressed (Registry.IsAbstract (registry.blueprints config.context)) w where
  names := h.ordered.names
  cells := h.housed.cells
  houses := h.housed.houses
  answers _ hm := h.answersToName_iff hr hplan hm
  snapshots hnames := by
    refine (meets_snapshots h.ordered fun m hm => ⟨?_, h.housed.houses m hm⟩).yields
      (fun _ _ h => h) fun h => h
    exact ((h.answersToName_iff hr hplan hm).2 (hnames m hm)).finds
  passes hnames op name token := by
    refine nodup_found_route h.ordered h.housed (fun m hm => ?_) ?_ op token
    · exact ((h.answersToName_iff hr hplan hm).2 (hnames m hm)).finds
    · rw [h.dealias]
      exact ((Registry.exists_plan_iff hr).1 hplan).meaning_meaning
        (by rwa [Registry.names_blueprints]) name
  refuses _ htaken := (meets_register_taken htaken).yields (fun _ _ h => h) fun h => h
  joins d report calls v run := by
    obtain ⟨m, hmembers, hname⟩ := run.ends (brings_register d w) report rfl
    rw [← hname]
    have hv : Stems registry config v := h.advances (run.meets (brings_register d w)).1
    have hm : m ∈ v.roster.members := by simp [hmembers]
    refine ⟨m, hmembers, rfl, hv.housed.houses m hm, fun hmem => ?_,
      hv.answersToName_iff hr hplan hm⟩
    have hcells := hv.housed.cells
    rw [hmembers, List.map_append, List.nodup_append] at hcells
    exact hcells.2.2 m.cell hmem m.cell (by simp) rfl

/-- In a fleet that was started and attended to in any way, a member answers to its name just if the
name is not abstract, and as long as no member has an abstract name all of them are shown under
their own names and no pass comes to one of them twice. Names of members and of components that were
left out are refused to late components; so only late components have abstract names. -/
theorem members_answer_to_names {registry : Registry K}
    {ds : List (Registry.Descriptor (Factory K))} {config : Config} {u v : World K}
    (hregistry : Registry.empty.registerAll ds = .ok registry)
    (hfounded : Founded registry config u) (huv : Attended u v) :
    Addressed (Registry.IsAbstract (registry.blueprints config.context)) v ∧
      ∀ m ∈ u.roster.members, m ∈ v.roster.members ∧ AnswersToName v m := by
  have hr : registry.names.Nodup := Registry.nodup_names_registerAll hregistry List.nodup_nil
  have hplan : ∃ p, (registry.plan config.context).2 = .ok p :=
    (hfounded.planned hr).imp fun _ h => h.1
  have hv : Stems registry config v := (hfounded.stems hr).advances huv.advances
  refine ⟨hv.addressed hr hplan, fun m hm => ?_⟩
  have hmem : m ∈ v.roster.members := huv.advances.members.subset hm
  exact ⟨hmem, (hv.answersToName_iff hr hplan hmem).2 (hfounded.not_isAbstract hr hm)⟩

/-- An interface is added to the cache and the store, and all three answer to their names. -/
theorem members_answer_to_names_cacheAndStore :
    let u := after (start cacheAndStore {}) {}
    let v := after (Request.register (idle "api" ["cache"])).action u
    v.roster.order = ["store", "cache", "api"] ∧ (∀ m ∈ v.roster.members, AnswersToName v m) ∧
      Yields (World.Keeps fun _ => False) snapshots v fun _ ss _ =>
        ss.map (·.name) = v.roster.order := by
  intro u v
  have hu : Founded cacheAndStore {} u := founded_after rfl
  have huv : Attended u v := attended_after (by decide +kernel)
  obtain ⟨h, -⟩ := members_answer_to_names registerAll_cacheAndStore hu huv
  have hconcrete : ∀ b ∈ cacheAndStore.blueprints ({} : Config).context, b.isAbstract = false := by
    decide
  have hnames : ∀ name,
      ¬ Registry.IsAbstract (cacheAndStore.blueprints ({} : Config).context) name := by
    rintro name ⟨b, hb, -, habstract⟩
    rw [hconcrete b hb] at habstract
    exact Bool.noConfusion habstract
  exact ⟨by decide +kernel, fun m hm => (h.answers m hm).2 (hnames _),
    h.snapshots fun _ _ => hnames _⟩

/-- A store that stands in for the abstract name of a cache. -/
def storeAsCache : Registry Rehearsal.kit :=
  ⟨[{ idle "redis" [] with implements := ["cache"] },
    { Registry.Blueprint.abstract "cache" { answer := fun _ => "redis", note := "" } with }]⟩

/-- A component may be registered under the abstract name of a cache, and then its name leads to
the store. -/
theorem latecomer_may_not_answer :
    ¬ ∀ (u v : World Rehearsal.kit), Founded storeAsCache {} u → Attended u v →
      ∀ m ∈ v.roster.members, v.roster.find m.name = .ok m.cell := by
  intro hall
  let u := after (start storeAsCache {}) {}
  let v := after (Request.register (idle "cache" [])).action u
  have hfind := hall u v (founded_after rfl) (attended_after (by decide +kernel))
    ⟨"cache", 1, [], [], false⟩ (by decide +kernel)
  have hstore : v.roster.find "cache" = .ok 0 := by decide +kernel
  rw [hstore] at hfind
  exact absurd (Except.ok.inj hfind) (by decide)

end Fleet

end Steward
