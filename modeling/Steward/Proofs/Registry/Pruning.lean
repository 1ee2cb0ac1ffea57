import Steward.Proofs.Registry.Acceptance
/-!
Who is in a plan, and in what shape. Steps come after all that they refer to, and carry the
references of their blueprints by what these mean. A component is left out if its condition is
false, or if following dependencies from it leads to a component with a false condition; links
lead nowhere.
-/
namespace Steward.Registry

variable {F : Type} {ctx : Context} {bs : List (Blueprint F)} {ds : List (Descriptor F)}
  {r : Registry F} {p : Plan F} {order : List (Node F)}

theorem dealias_of_plan (hr : r.names.Nodup) (hp : (r.plan ctx).2 = .ok p) :
    dealias p.aliases = meaning (r.blueprints ctx) ctx := by
  have hbs : ((r.blueprints ctx).map (·.name)).Nodup := by rwa [names_blueprints]
  obtain ⟨aliases, ns, order, haliases, -, -, rfl⟩ := plan_eq_ok_iff.1 hp
  obtain ⟨-, rfl⟩ := (resolveAll_eq_ok_iff hbs).1 haliases
  exact funext (dealias_aliases hbs)

/-- The links of a blueprint by what their targets mean, without those onto certain names. -/
def linksApart (bs : List (Blueprint F)) (ctx : Context) (names : List String)
    (b : Blueprint F) : List Link :=
  (b.links.map fun l => { l with target := meaning bs ctx l.target }).filter fun l =>
    l.target ∉ names

theorem Represents.step_dependencies {aliases : List (String × String)} {b : Blueprint F}
    {n : Node F} {skipped : List Skipped} (h : Represents bs aliases b n)
    (hmeaning : dealias aliases = meaning bs ctx) :
    (n.step skipped).dependencies = (b.dependencies.map (meaning bs ctx)).eraseDups := by
  show n.dependencies = _
  rw [h.dependencies, distinct_eq_eraseDups, hmeaning]

theorem Represents.step_links {aliases : List (String × String)} {b : Blueprint F} {n : Node F}
    {skipped : List Skipped} (h : Represents bs aliases b n)
    (hmeaning : dealias aliases = meaning bs ctx) :
    (n.step skipped).links = linksApart bs ctx (namesOf skipped) b := by
  show n.links.filter _ = _
  rw [h.links, linksApart, hmeaning]
  refine List.filter_congr fun l _ => ?_
  rw [Bool.eq_iff_iff, Bool.not_eq_true', ← Bool.not_eq_true, any_name_iff, decide_eq_true_iff]

/-- What a step needs is a step that stands before it, and so it is neither the step itself, nor
left out, nor abstract. -/
theorem Plan.Sound.needs_before (h : p.Sound bs ctx) (hbs : (bs.map (·.name)).Nodup) {i : Nat}
    {s : Step F} (hs : p.steps[i]? = some s) {n : String} (hn : n ∈ s.needs) :
    (∃ j < i, p.order[j]? = some n) ∧ n ≠ s.name ∧ n ∉ namesOf p.skipped ∧
      ∀ a ∈ bs, a.name = n → a.isAbstract = false := by
  have hnodup := List.nodup_append.1 h.nodup
  have hbefore : n ∈ p.order.take i := by
    rw [Plan.order, ← List.map_take]
    exact h.needsFirst.take hs n hn
  obtain ⟨j, hj⟩ := List.mem_iff_getElem?.1 hbefore
  have hji : j < i := by
    have hlt := (List.getElem?_eq_some_iff.1 hj).1
    rw [List.length_take] at hlt
    omega
  rw [List.getElem?_take_of_lt hji] at hj
  have hmem : n ∈ p.order := List.mem_of_getElem? hj
  refine ⟨⟨j, hji, hj⟩, ?_, fun hskipped => hnodup.2.2 n hmem n hskipped rfl, ?_⟩
  · rintro rfl
    have hi : p.order[i]? = some s.name := by rw [Plan.order, List.getElem?_map, hs]; rfl
    have hlt : i < p.order.length := (List.getElem?_eq_some_iff.1 hi).1
    exact List.nodup_iff_getElem?_ne_getElem?.1 hnodup.1 j i hji hlt (hj.trans hi.symm)
  · rintro a ha rfl
    obtain ⟨b, hb, hname, hconcrete⟩ := (h.mem_iff a.name).1 (.inl hmem)
    rwa [List.inj_on_of_nodup_map hbs ha hb hname.symm]

/-- The steps of a plan have distinct names, and each needs only steps that stand before it. It
depends on what its blueprint depends on, each once, and has the links of its blueprint except
those onto components that are left out. -/
theorem plan_is_closed (hregistry : Registry.empty.registerAll ds = .ok r)
    (hp : (r.plan ctx).2 = .ok p) :
    p.order.Nodup ∧
    (∀ (i : Nat) (s : Step F), p.steps[i]? = some s →
      ∀ n, n ∈ s.dependencies ∨ n ∈ s.links.map (·.target) →
        (∃ j < i, p.order[j]? = some n) ∧ n ≠ s.name ∧ n ∉ p.skipped.map (·.name) ∧
          ∀ a ∈ r.blueprints ctx, a.name = n → a.isAbstract = false) ∧
    ∀ s ∈ p.steps, ∃ b ∈ r.blueprints ctx, b.name = s.name ∧
      b.kind = .concrete s.factory s.isManager ∧
      s.dependencies = (b.dependencies.map (meaning (r.blueprints ctx) ctx)).eraseDups ∧
      s.links = linksApart (r.blueprints ctx) ctx (p.skipped.map (·.name)) b := by
  have hr : r.names.Nodup := nodup_names_registerAll hregistry List.nodup_nil
  have hsound := sound_plan hr hp
  refine ⟨(List.nodup_append.1 hsound.nodup).1, fun i s hs n hn => ?_, fun s hs => ?_⟩
  · exact hsound.needs_before (by rwa [names_blueprints]) hs (List.mem_append.2 hn)
  · obtain ⟨b, hb, n, hrep, -, rfl⟩ := hsound.step s hs
    have hmeaning := dealias_of_plan hr hp
    exact ⟨b, hb, hrep.name.symm, hrep.kind, hrep.step_dependencies hmeaning,
      hrep.step_links hmeaning⟩

theorem plan_is_closed_household : ∃ p, (household.plan default).2 = .ok p ∧
    p.order = ["disk", "cache", "api"] ∧ p.order.Nodup ∧
    ∀ s ∈ p.steps, ∃ b ∈ household.blueprints default, b.name = s.name ∧
      b.kind = .concrete s.factory s.isManager ∧
      s.dependencies =
        (b.dependencies.map (meaning (household.blueprints default) default)).eraseDups ∧
      s.links = linksApart (household.blueprints default) default (p.skipped.map (·.name)) b := by
  have hplan : ∃ p, (household.plan default).2 = .ok p ∧ p.order = ["disk", "cache", "api"] :=
    ⟨_, rfl, by decide +kernel⟩
  obtain ⟨p, hp, horder⟩ := hplan
  obtain ⟨hnodup, -, hsteps⟩ := plan_is_closed registerAll_household hp
  exact ⟨p, hp, horder, hnodup, hsteps⟩

def IsBarred (bs : List (Blueprint F)) (ctx : Context) (name : String) : Prop :=
  ∃ b ∈ bs, b.isAbstract = false ∧ b.name = name ∧ b.condition.holds ctx = false

theorem Represents.mem_dependencies_iff {aliases : List (String × String)} {b : Blueprint F}
    {n : Node F} {d : String} (h : Represents bs aliases b n)
    (hmeaning : dealias aliases = meaning bs ctx) :
    d ∈ n.dependencies ↔ d ∈ b.dependencies.map (meaning bs ctx) := by
  rw [h.dependencies, mem_distinct, hmeaning]

theorem Plan.Arises.leads_to_barred (h : p.Arises bs ctx order)
    (hmeaning : dealias p.aliases = meaning bs ctx) : ∀ n ∈ order,
    n.name ∈ namesOf (prune ctx order) →
      ∃ c, IsBarred bs ctx c ∧ Relation.ReflTransGen (DependsOn bs ctx) n.name c := by
  refine Prefixwise.forall_mem h.needsFirst fun before n hn hneeds ih hskipped => ?_
  obtain ⟨b, hb, hrep⟩ := h.exists_blueprint n hn
  rcases (name_mem_prune_iff h.nodup h.needsFirst hn).1 hskipped with hfalse | ⟨d, hd, hskipped⟩
  · rw [hrep.condition] at hfalse
    exact ⟨n.name, ⟨b, hb, hrep.isAbstract, hrep.name.symm, hfalse⟩, .refl⟩
  · obtain ⟨m, hm, rfl⟩ := List.mem_map.1 (hneeds d (List.mem_append_left _ hd))
    obtain ⟨c, hc, hchain⟩ := ih m hm hskipped
    have hstep : DependsOn bs ctx n.name m.name :=
      ⟨b, hb, hrep.isAbstract, hrep.name.symm, (hrep.mem_dependencies_iff hmeaning).1 hd⟩
    exact ⟨c, hc, hchain.head hstep⟩

theorem Plan.Arises.skipped_of_chain (h : p.Arises bs ctx order)
    (hmeaning : dealias p.aliases = meaning bs ctx) {a c : String} (hc : IsBarred bs ctx c)
    (hchain : Relation.ReflTransGen (DependsOn bs ctx) a c) : a ∈ namesOf (prune ctx order) := by
  induction hchain using Relation.ReflTransGen.head_induction_on with
  | refl =>
    obtain ⟨b, hb, hconcrete, rfl, hfalse⟩ := hc
    obtain ⟨n, hn, hrep⟩ := h.exists_node b hb hconcrete
    rw [← hrep.name, name_mem_prune_iff h.nodup h.needsFirst hn, hrep.condition]
    exact .inl hfalse
  | head hstep _ ih =>
    obtain ⟨b, hb, hconcrete, rfl, hd⟩ := hstep
    obtain ⟨n, hn, hrep⟩ := h.exists_node b hb hconcrete
    rw [← hrep.name, name_mem_prune_iff h.nodup h.needsFirst hn]
    exact .inr ⟨_, (hrep.mem_dependencies_iff hmeaning).2 hd, ih⟩

/-- The reason of a component that is left out is its own condition, or else its first dependency
that is left out. -/
theorem Plan.Arises.reason (h : p.Arises bs ctx order)
    (hmeaning : dealias p.aliases = meaning bs ctx) {s : Skipped} (hs : s ∈ prune ctx order) :
    ∃ b ∈ bs, b.isAbstract = false ∧ b.name = s.name ∧
      (b.condition.holds ctx = false → s.reason = conditionIsFalse) ∧
      (b.condition.holds ctx = true → ∃ d,
        (b.dependencies.map (meaning bs ctx)).find? (· ∈ namesOf (prune ctx order)) = some d ∧
          s.reason = dependsOnSkipped d) := by
  obtain ⟨n, hn, hname, hreason⟩ := (mem_prune_iff h.nodup h.needsFirst).1 hs
  obtain ⟨b, hb, hrep⟩ := h.exists_blueprint n hn
  refine ⟨b, hb, hrep.isAbstract, hrep.name.symm.trans hname, fun hfalse => ?_, fun htrue => ?_⟩
  · rw [skipReason?, hrep.condition, hfalse] at hreason
    exact (Option.some.inj hreason).symm
  · rw [skipReason?, hrep.condition, htrue, hrep.dependencies, distinct_eq_eraseDups,
      find?_eraseDups, hmeaning] at hreason
    obtain ⟨d, hd, hreason⟩ := Option.map_eq_some_iff.1 hreason
    refine ⟨d, ?_, hreason.symm⟩
    rw [← hd]
    refine List.find?_congr fun m _ => ?_
    rw [Bool.eq_iff_iff, any_name_iff, decide_eq_true_iff]

/-- Every concrete component is once a step or once left out. It is left out just if its own
condition is false, or dependencies lead from it to a component whose condition is; and the reason
is its own condition, or else its first dependency that is left out. -/
theorem plan_leaves_out_exactly (hregistry : Registry.empty.registerAll ds = .ok r)
    (hp : (r.plan ctx).2 = .ok p) :
    (∀ b ∈ r.blueprints ctx, b.isAbstract = false →
      p.order.count b.name + (p.skipped.map (·.name)).count b.name = 1 ∧
      (b.name ∈ p.skipped.map (·.name) ↔ b.condition.holds ctx = false ∨
        ∃ c ∈ r.blueprints ctx, c.isAbstract = false ∧ c.condition.holds ctx = false ∧
          Relation.TransGen (DependsOn (r.blueprints ctx) ctx) b.name c.name)) ∧
    ∀ s ∈ p.skipped, ∃ b ∈ r.blueprints ctx, b.isAbstract = false ∧ b.name = s.name ∧
      (b.condition.holds ctx = false → s.reason = "build condition is false") ∧
      (b.condition.holds ctx = true → ∃ d,
        (b.dependencies.map (meaning (r.blueprints ctx) ctx)).find?
          (· ∈ p.skipped.map (·.name)) = some d ∧
          s.reason = s!"depends on skipped component '{d}'") := by
  have hr : r.names.Nodup := nodup_names_registerAll hregistry List.nodup_nil
  have hbs : ((r.blueprints ctx).map (·.name)).Nodup := by rwa [names_blueprints]
  obtain ⟨order, harises⟩ := exists_arises hr hp
  have hsound := harises.sound
  have hmeaning := dealias_of_plan hr hp
  have hskipped : p.skipped = prune ctx order := congrArg Plan.skipped harises.eq_planOf
  refine ⟨fun b hb hconcrete => ⟨?_, ?_⟩, fun s hs => ?_⟩
  · rw [← List.count_append]
    refine List.count_eq_one_of_mem hsound.nodup (List.mem_append.2 ?_)
    exact (hsound.mem_iff b.name).2 ⟨b, hb, rfl, hconcrete⟩
  · rw [hskipped]
    constructor
    · intro h
      obtain ⟨n, hn, hrep⟩ := harises.exists_node b hb hconcrete
      rw [← hrep.name] at h
      obtain ⟨_, ⟨c, hc, hc', rfl, hfalse⟩, hchain⟩ := harises.leads_to_barred hmeaning n hn h
      rw [hrep.name] at hchain
      rcases Relation.reflTransGen_iff_eq_or_transGen.1 hchain with heq | hchain
      · rw [List.inj_on_of_nodup_map hbs hb hc heq.symm]
        exact .inl hfalse
      · exact .inr ⟨c, hc, hc', hfalse, hchain⟩
    · rintro (hfalse | ⟨c, hc, hc', hfalse, hchain⟩)
      · exact harises.skipped_of_chain hmeaning ⟨b, hb, hconcrete, rfl, hfalse⟩ .refl
      · exact harises.skipped_of_chain hmeaning ⟨c, hc, hc', rfl, hfalse⟩ hchain.to_reflTransGen
  · rw [hskipped] at hs ⊢
    exact harises.reason hmeaning hs

/-- The search is left out for its condition, and the report because it depends on the search. -/
theorem plan_leaves_out_exactly_household : ∃ p, (household.plan default).2 = .ok p ∧
    p.skipped = [⟨"search", "build condition is false"⟩,
      ⟨"report", "depends on skipped component 'search'"⟩] ∧
    ∀ b ∈ household.blueprints default, b.isAbstract = false →
      p.order.count b.name + (p.skipped.map (·.name)).count b.name = 1 := by
  have hplan : ∃ p, (household.plan default).2 = .ok p ∧
      p.skipped = [⟨"search", "build condition is false"⟩,
        ⟨"report", "depends on skipped component 'search'"⟩] := ⟨_, rfl, by decide +kernel⟩
  obtain ⟨p, hp, hskipped⟩ := hplan
  have hexactly := (plan_leaves_out_exactly registerAll_household hp).1
  exact ⟨p, hp, hskipped, fun b hb hconcrete => (hexactly b hb hconcrete).1⟩

end Steward.Registry
