import Steward.Proofs.Registry.Order
import Steward.Registry.Plan
/-!
What a plan is made of. Every concrete blueprint becomes a node of its name, with its references
replaced, and every node becomes a step or is left out. A step comes after all that it refers to,
and nothing that it refers to is left out.
-/
namespace Steward.Registry

variable {F : Type} {ctx : Context} {aliases : List (String × String)} {bs : List (Blueprint F)}

theorem nodup_names_registerAll {ds : List (Descriptor F)} {r s : Registry F}
    (h : r.registerAll ds = .ok s) (hr : r.names.Nodup) : s.names.Nodup := by
  induction ds generalizing r with
  | nil =>
    obtain rfl := Except.ok.inj h
    exact hr
  | cons d ds ih =>
    obtain ⟨r', hr', h⟩ := bind_eq_ok.1 h
    exact ih h (nodup_names_register hr' hr)

structure Represents (bs : List (Blueprint F)) (aliases : List (String × String))
    (b : Blueprint F) (n : Node F) : Prop where
  name : n.name = b.name
  kind : b.kind = .concrete n.factory n.isManager
  condition : n.condition = b.condition
  dependencies : n.dependencies = distinct (b.dependencies.map (dealias aliases))
  links : n.links = b.links.map fun l => { l with target := dealias aliases l.target }
  isConcrete : ∀ m ∈ n.prerequisites, (concrete? bs m).isSome = true ∧ m ≠ b.name

theorem of_refer {owner target name : String} (h : refer bs aliases owner target = .ok name) :
    name = dealias aliases target ∧ (concrete? bs name).isSome = true ∧ name ≠ owner := by
  simp only [refer] at h
  split at h
  · cases h
  · rename_i hsome
    split at h
    · cases h
    · rename_i hne
      obtain rfl : dealias aliases target = name := by simpa using h
      exact ⟨rfl, by simpa [Option.isSome_iff_ne_none] using hsome, hne⟩

theorem distinct_eq_eraseDups (names : List String) : distinct names = names.eraseDups := by
  suffices h : ∀ kept : List String,
      names.foldl (fun kept n => if kept.contains n then kept else kept ++ [n]) kept =
        kept ++ (names.filter fun n => !kept.contains n).eraseDups by
    simpa [distinct] using h []
  induction names with
  | nil => simp
  | cons m names ih =>
    intro kept
    rw [List.foldl_cons, ih]
    by_cases hm : kept.contains m = true
    · rw [if_pos hm, List.filter_cons_of_neg (by simpa using hm)]
    · rw [if_neg hm, List.filter_cons_of_pos (by simpa using hm), List.eraseDups_cons,
        List.filter_filter, List.append_assoc, List.singleton_append]
      congr 4
      funext n
      simp [beq_eq_decide, Bool.and_comm]

theorem mem_distinct {names : List String} {n : String} : n ∈ distinct names ↔ n ∈ names := by
  rw [distinct_eq_eraseDups, List.mem_eraseDups]

theorem represents_of_node? {b : Blueprint F} {n : Node F}
    (h : node? bs aliases b = .ok (some n)) : Represents bs aliases b n := by
  unfold node? at h
  split at h
  · cases h
  · rename_i factory isManager hkind
    obtain ⟨deps, hdeps, h⟩ := bind_eq_ok.1 h
    obtain ⟨links, hlinks, h⟩ := bind_eq_ok.1 h
    obtain rfl := Option.some.inj (Except.ok.inj h)
    have hdeps' := forall₂_of_mapM hdeps
    have hlinks' : List.Forall₂ (fun l l' => refer bs aliases b.name l.target = .ok l'.target ∧
        l' = { l with target := dealias aliases l.target }) b.links links := by
      refine (forall₂_of_mapM hlinks).imp fun l l' hl => ?_
      obtain ⟨target, htarget, hl⟩ := bind_eq_ok.1 hl
      obtain rfl := Except.ok.inj hl
      exact ⟨htarget, by rw [(of_refer htarget).1]⟩
    refine
      { name := rfl
        kind := hkind
        condition := rfl
        dependencies := congrArg distinct (eq_map_of_forall₂ hdeps' fun _ _ hd => (of_refer hd).1)
        links := eq_map_of_forall₂ hlinks' fun _ _ hl => hl.2
        isConcrete := fun m hm => ?_ }
    rcases List.mem_append.1 hm with hm | hm
    · obtain ⟨d, -, hd⟩ := exists_left_of_forall₂ hdeps' (mem_distinct.1 hm)
      exact (of_refer hd).2
    · obtain ⟨l, hl, rfl⟩ := List.mem_map.1 hm
      obtain ⟨l', -, hl', -⟩ := exists_left_of_forall₂ hlinks' hl
      exact (of_refer hl').2

theorem isAbstract_of_node? {b : Blueprint F} (h : node? bs aliases b = .ok none) :
    b.isAbstract = true := by
  unfold node? at h
  split at h
  · rename_i hkind
    rw [Blueprint.isAbstract, hkind]
  · obtain ⟨deps, -, h⟩ := bind_eq_ok.1 h
    obtain ⟨links, -, h⟩ := bind_eq_ok.1 h
    cases h

theorem Represents.isAbstract {b : Blueprint F} {n : Node F} (h : Represents bs aliases b n) :
    b.isAbstract = false := by
  rw [Blueprint.isAbstract, h.kind]

theorem represents_of_nodes {ns : List (Node F)} (h : nodes bs aliases = .ok ns) :
    List.Forall₂ (Represents bs aliases) (bs.filter fun b => !b.isAbstract) ns := by
  obtain ⟨found, hfound, h⟩ := bind_eq_ok.1 h
  obtain rfl := Except.ok.inj h
  suffices hall : ∀ (cs : List (Blueprint F)) (found : List (Option (Node F))),
      List.Forall₂ (fun b o => node? bs aliases b = .ok o) cs found →
      List.Forall₂ (Represents bs aliases) (cs.filter fun b => !b.isAbstract)
        (found.filterMap id) from hall bs found (forall₂_of_mapM hfound)
  intro cs found hcs
  induction hcs with
  | nil => exact .nil
  | @cons b o _ _ hb _ ih =>
    rcases o with _ | n
    · rw [List.filter_cons_of_neg (by simp [isAbstract_of_node? hb])]
      exact ih
    · have hn := represents_of_node? hb
      rw [List.filter_cons_of_pos (by simp [hn.isAbstract])]
      exact .cons hn ih

theorem names_nodes {ns : List (Node F)} (h : nodes bs aliases = .ok ns) :
    ns.map (·.name) = (bs.filter fun b => !b.isAbstract).map (·.name) :=
  map_eq_map_of_forall₂ (·.name) (·.name) (represents_of_nodes h) fun _ _ hb => hb.name

theorem nodup_names_nodes {ns : List (Node F)} (h : nodes bs aliases = .ok ns)
    (hbs : (bs.map (·.name)).Nodup) : (ns.map (·.name)).Nodup := by
  rw [names_nodes h]
  exact hbs.sublist (List.filter_sublist.map _)

def namesOf (skipped : List Skipped) : List String := skipped.map (·.name)

theorem any_name_iff {skipped : List Skipped} {name : String} :
    (skipped.any fun s => s.name == name) = true ↔ name ∈ namesOf skipped := by
  simp [namesOf]

def skippedOf? (ctx : Context) (skipped : List Skipped) (n : Node F) : Option Skipped :=
  (skipReason? ctx skipped n).map (⟨n.name, ·⟩)

theorem skipReason?_isSome_iff {skipped : List Skipped} {n : Node F} :
    (skipReason? ctx skipped n).isSome = true ↔
      n.condition.holds ctx = false ∨ ∃ d ∈ n.dependencies, d ∈ namesOf skipped := by
  unfold skipReason?
  split
  · rename_i hfalse
    simpa using .inl (by simpa using hfalse)
  · rename_i hholds
    simp only [Option.isSome_map, List.find?_isSome, any_name_iff]
    simp [by simpa using hholds]

theorem skipReason?_congr {skipped skipped' : List Skipped} {n : Node F}
    (h : ∀ d ∈ n.dependencies, d ∈ namesOf skipped ↔ d ∈ namesOf skipped') :
    skipReason? ctx skipped n = skipReason? ctx skipped' n := by
  unfold skipReason?
  rw [List.find?_congr fun d hd => ?_]
  rw [Bool.eq_iff_iff, any_name_iff, any_name_iff, h d hd]

theorem prune_concat (before : List (Node F)) (n : Node F) :
    prune ctx (before ++ [n]) =
      prune ctx before ++ (skippedOf? ctx (prune ctx before) n).toList := by
  simp only [prune, List.foldl_append, List.foldl_cons, List.foldl_nil, skippedOf?]
  split
  · rename_i reason hskip
    simp [hskip]
  · rename_i hstay
    simp [hstay]

theorem prune_sublist (ns : List (Node F)) :
    (namesOf (prune ctx ns)).Sublist (ns.map (·.name)) := by
  induction ns using List.reverseRecOn with
  | nil => exact List.Sublist.refl _
  | append_singleton ns n ih =>
    rw [prune_concat, namesOf, List.map_append, List.map_append]
    refine ih.append ?_
    rw [skippedOf?]
    cases skipReason? ctx (prune ctx ns) n <;> simp

/-- Nodes in order are left out one after the other, and yet each is left out as all that are left
out would have it: what is decided later is nothing that it depends on. -/
theorem prune_eq_filterMap {ordered : List (Node F)} (hnodup : (ordered.map (·.name)).Nodup)
    (hfirst : Order.NeedsFirst (·.name) Node.prerequisites ordered) :
    prune ctx ordered = ordered.filterMap (skippedOf? ctx (prune ctx ordered)) := by
  induction ordered using List.reverseRecOn with
  | nil => rfl
  | append_singleton before n ih =>
    have hsame : ∀ m ∈ before ++ [n],
        skippedOf? ctx (prune ctx (before ++ [n])) m = skippedOf? ctx (prune ctx before) m := by
      intro m hm
      rw [skippedOf?, skippedOf?, skipReason?_congr]
      intro d hd
      have hbefore : d ∈ before.map (·.name) := by
        rcases List.mem_append.1 hm with hm | hm
        · exact Order.NeedsFirst.mem_names hfirst.of_append hm (List.mem_append_left _ hd)
        · rw [List.mem_singleton.1 hm] at hd
          exact hfirst.last d (List.mem_append_left _ hd)
      have hne : d ≠ n.name := by
        rw [List.map_append, List.nodup_append] at hnodup
        exact hnodup.2.2 d hbefore n.name (by simp)
      rw [prune_concat, namesOf, List.map_append, List.mem_append, skippedOf?]
      cases skipReason? ctx (prune ctx before) n <;> simp [namesOf, hne]
    have hnodup' : (before.map (·.name)).Nodup := by
      rw [List.map_append] at hnodup
      exact (List.nodup_append.1 hnodup).1
    rw [List.filterMap_congr hsame, List.filterMap_append, ← ih hnodup' hfirst.of_append,
      prune_concat]
    rcases hn : skippedOf? ctx (prune ctx before) n with _ | s <;> simp [hn]

section Ordered

variable {ordered : List (Node F)} (hnodup : (ordered.map (·.name)).Nodup)
  (hfirst : Order.NeedsFirst (·.name) Node.prerequisites ordered)

include hnodup hfirst

theorem mem_prune_iff {s : Skipped} : s ∈ prune ctx ordered ↔
    ∃ n ∈ ordered, n.name = s.name ∧ skipReason? ctx (prune ctx ordered) n = some s.reason := by
  have h : s ∈ prune ctx ordered ↔ s ∈ ordered.filterMap (skippedOf? ctx (prune ctx ordered)) := by
    rw [← prune_eq_filterMap hnodup hfirst]
  rw [h, List.mem_filterMap]
  refine exists_congr fun n => and_congr_right fun _ => ?_
  rw [skippedOf?, Option.map_eq_some_iff]
  constructor
  · rintro ⟨reason, hreason, rfl⟩
    exact ⟨rfl, hreason⟩
  · rintro ⟨hname, hreason⟩
    exact ⟨s.reason, hreason, by rw [hname]⟩

/-- A node is left out if its condition is false or something that it depends on is left out, and
only then. -/
theorem name_mem_prune_iff {n : Node F} (hn : n ∈ ordered) :
    n.name ∈ namesOf (prune ctx ordered) ↔ n.condition.holds ctx = false ∨
      ∃ d ∈ n.dependencies, d ∈ namesOf (prune ctx ordered) := by
  rw [← skipReason?_isSome_iff]
  constructor
  · intro h
    obtain ⟨s, hs, hname⟩ := List.mem_map.1 h
    obtain ⟨m, hm, hname', hreason⟩ := (mem_prune_iff hnodup hfirst).1 hs
    rw [List.inj_on_of_nodup_map hnodup hn hm (hname.symm.trans hname'.symm), hreason]
    rfl
  · intro h
    obtain ⟨reason, hreason⟩ := Option.isSome_iff_exists.1 h
    exact List.mem_map.2
      ⟨⟨n.name, reason⟩, (mem_prune_iff hnodup hfirst).2 ⟨n, hn, rfl, hreason⟩, rfl⟩

theorem of_name_not_mem_prune {n : Node F} (hn : n ∈ ordered)
    (h : n.name ∉ namesOf (prune ctx ordered)) :
    n.condition.holds ctx = true ∧ ∀ d ∈ n.dependencies, d ∉ namesOf (prune ctx ordered) := by
  rw [name_mem_prune_iff hnodup hfirst hn, not_or, Bool.not_eq_false] at h
  exact ⟨h.1, fun d hd hskipped => h.2 ⟨d, hd, hskipped⟩⟩

end Ordered

def Step.needs (s : Step F) : List String := s.dependencies ++ s.links.map (·.target)

section PlanOf

variable {ordered : List (Node F)}

theorem mem_steps_planOf {s : Step F} :
    s ∈ (planOf ctx aliases ordered).steps ↔ ∃ n ∈ ordered,
      n.name ∉ namesOf (prune ctx ordered) ∧ n.step (prune ctx ordered) = s := by
  simp only [planOf, List.mem_map, List.mem_filter, Bool.not_eq_true', and_assoc]
  simp only [← Bool.not_eq_true, any_name_iff]

theorem order_planOf : (planOf ctx aliases ordered).order =
    (ordered.filter fun n => !(prune ctx ordered).any fun s => s.name == n.name).map (·.name) := by
  rw [Plan.order, planOf, List.map_map]
  rfl

theorem mem_order_planOf {name : String} : name ∈ (planOf ctx aliases ordered).order ↔
    name ∈ ordered.map (·.name) ∧ name ∉ namesOf (prune ctx ordered) := by
  simp only [order_planOf, List.mem_map, List.mem_filter, Bool.not_eq_true', ← Bool.not_eq_true,
    any_name_iff]
  constructor
  · rintro ⟨n, ⟨hn, hkept⟩, rfl⟩
    exact ⟨⟨n, hn, rfl⟩, hkept⟩
  · rintro ⟨⟨n, hn, rfl⟩, hkept⟩
    exact ⟨n, ⟨hn, hkept⟩, rfl⟩

theorem nodup_planOf (hnodup : (ordered.map (·.name)).Nodup) :
    ((planOf ctx aliases ordered).order ++ namesOf (prune ctx ordered)).Nodup := by
  refine List.nodup_append.2 ⟨?_, hnodup.sublist (prune_sublist ordered), ?_⟩
  · rw [order_planOf]
    exact hnodup.sublist (List.filter_sublist.map _)
  · rintro a ha _ hb rfl
    exact (mem_order_planOf.1 ha).2 hb

theorem mem_planOf_iff {name : String} : name ∈ (planOf ctx aliases ordered).order ∨
    name ∈ namesOf (planOf ctx aliases ordered).skipped ↔ name ∈ ordered.map (·.name) := by
  rw [mem_order_planOf]
  constructor
  · rintro (h | h)
    · exact h.1
    · exact (prune_sublist ordered).subset h
  · intro h
    by_cases hskipped : name ∈ namesOf (prune ctx ordered)
    · exact .inr hskipped
    · exact .inl ⟨h, hskipped⟩

/-- Of a node that stays, the dependencies stay, and the links onto what does not stay are gone. -/
theorem needsFirst_planOf (hnodup : (ordered.map (·.name)).Nodup)
    (hfirst : Order.NeedsFirst (·.name) Node.prerequisites ordered) :
    Order.NeedsFirst (·.name) Step.needs (planOf ctx aliases ordered).steps := by
  have hkept : Prefixwise (fun before (n : Node F) =>
      ∀ d ∈ (n.step (prune ctx ordered)).needs, d ∈ before.map (·.name))
      (ordered.filter fun n => !(prune ctx ordered).any fun s => s.name == n.name) := by
    refine hfirst.filter _ fun before n after hsplit hn hneeds d hd => ?_
    rw [Bool.not_eq_true', ← Bool.not_eq_true, any_name_iff] at hn
    suffices hstays : d ∈ n.prerequisites ∧ d ∉ namesOf (prune ctx ordered) by
      obtain ⟨m, hm, rfl⟩ := List.mem_map.1 (hneeds d hstays.1)
      refine List.mem_map.2 ⟨m, List.mem_filter.2 ⟨hm, ?_⟩, rfl⟩
      rw [Bool.not_eq_true', ← Bool.not_eq_true, any_name_iff]
      exact hstays.2
    rcases List.mem_append.1 hd with hd | hd
    · have hmem : n ∈ ordered := by simp [hsplit]
      exact ⟨List.mem_append_left _ hd, (of_name_not_mem_prune hnodup hfirst hmem hn).2 d hd⟩
    · obtain ⟨l, hl, rfl⟩ := List.mem_map.1 hd
      obtain ⟨hl, hstays⟩ := List.mem_filter.1 hl
      rw [Bool.not_eq_true', ← Bool.not_eq_true, any_name_iff] at hstays
      exact ⟨List.mem_append_right _ (List.mem_map_of_mem hl), hstays⟩
  refine Prefixwise.map _ hkept fun before n h d hd => ?_
  rw [List.map_map]
  exact h d hd

end PlanOf

structure Plan.Sound (p : Plan F) (bs : List (Blueprint F)) (ctx : Context) : Prop where
  /-- Nobody is planned twice, or planned and left out. -/
  nodup : (p.order ++ namesOf p.skipped).Nodup
  mem_iff : ∀ name, name ∈ p.order ∨ name ∈ namesOf p.skipped ↔
    ∃ b ∈ bs, b.name = name ∧ b.isAbstract = false
  needsFirst : Order.NeedsFirst (·.name) Step.needs p.steps
  step : ∀ s ∈ p.steps, ∃ b ∈ bs, ∃ n : Node F, Represents bs p.aliases b n ∧
    n.condition.holds ctx = true ∧ n.step p.skipped = s

theorem names_blueprints (r : Registry F) (ctx : Context) :
    (r.blueprints ctx).map (·.name) = r.names := by
  simp [blueprints, Registry.names]

/-- A plan is made in three steps: abstract names are resolved, references are replaced, and the
nodes are put in order. -/
theorem plan_snd (r : Registry F) (ctx : Context) : (r.plan ctx).2 = (do
    let aliases ← (resolveAll (r.blueprints ctx) ctx (r.blueprints ctx)).2
    let ns ← nodes (r.blueprints ctx) aliases
    match Order.sorted (·.name) Node.prerequisites ns with
    | .ok order => return planOf ctx aliases order
    | .error cycle => throw (.circularDependency cycle)) := by
  simp only [plan]
  rcases resolveAll (r.blueprints ctx) ctx (r.blueprints ctx) with ⟨notes, fault | aliases⟩
  · rfl
  · simp only [ordered, bind, Except.bind]
    rcases nodes (r.blueprints ctx) aliases with fault | ns
    · rfl
    · dsimp only
      cases Order.sorted (fun n : Node F => n.name) Node.prerequisites ns <;> rfl

theorem plan_eq_ok_iff {r : Registry F} {p : Plan F} :
    (r.plan ctx).2 = .ok p ↔ ∃ aliases ns order,
      (resolveAll (r.blueprints ctx) ctx (r.blueprints ctx)).2 = .ok aliases ∧
        nodes (r.blueprints ctx) aliases = .ok ns ∧
          Order.sorted (·.name) Node.prerequisites ns = .ok order ∧
            planOf ctx aliases order = p := by
  rw [plan_snd, bind_eq_ok]
  constructor
  · rintro ⟨aliases, haliases, h⟩
    obtain ⟨ns, hns, h⟩ := bind_eq_ok.1 h
    rcases hsorted : Order.sorted (·.name) Node.prerequisites ns with cycle | order
    · rw [hsorted] at h
      cases h
    · rw [hsorted] at h
      exact ⟨aliases, ns, order, haliases, hns, hsorted, Except.ok.inj h⟩
  · rintro ⟨aliases, ns, order, haliases, hns, hsorted, rfl⟩
    exact ⟨aliases, haliases, bind_eq_ok.2 ⟨ns, hns, by rw [hsorted]; rfl⟩⟩

structure Plan.Arises (p : Plan F) (bs : List (Blueprint F)) (ctx : Context)
    (order : List (Node F)) : Prop where
  exists_node : ∀ b ∈ bs, b.isAbstract = false → ∃ n ∈ order, Represents bs p.aliases b n
  exists_blueprint : ∀ n ∈ order, ∃ b ∈ bs, Represents bs p.aliases b n
  nodup : (order.map (·.name)).Nodup
  needsFirst : Order.NeedsFirst (·.name) Node.prerequisites order
  eq_planOf : p = planOf ctx p.aliases order

theorem exists_arises {r : Registry F} {p : Plan F} (hr : r.names.Nodup)
    (h : (r.plan ctx).2 = .ok p) : ∃ order, p.Arises (r.blueprints ctx) ctx order := by
  obtain ⟨aliases, ns, order, -, hns, hsorted, rfl⟩ := plan_eq_ok_iff.1 h
  obtain ⟨hperm, hfirst⟩ := Order.sorted_perm hsorted
  refine ⟨order, fun b hb hconcrete => ?_, fun n hn => ?_, ?_, hfirst, rfl⟩
  · obtain ⟨n, hn, hrep⟩ := exists_right_of_forall₂ (represents_of_nodes hns)
      (List.mem_filter.2 ⟨hb, by simp [hconcrete]⟩)
    exact ⟨n, hperm.mem_iff.2 hn, hrep⟩
  · obtain ⟨b, hb, hrep⟩ := exists_left_of_forall₂ (represents_of_nodes hns) (hperm.mem_iff.1 hn)
    exact ⟨b, List.mem_of_mem_filter hb, hrep⟩
  · rw [(hperm.map _).nodup_iff]
    exact nodup_names_nodes hns (by rwa [names_blueprints])

theorem Plan.Arises.sound {p : Plan F} {order : List (Node F)} (h : p.Arises bs ctx order) :
    p.Sound bs ctx := by
  rw [h.eq_planOf]
  refine ⟨nodup_planOf h.nodup, fun name => ?_, needsFirst_planOf h.nodup h.needsFirst,
    fun s hs => ?_⟩
  · rw [mem_planOf_iff, List.mem_map]
    constructor
    · rintro ⟨n, hn, rfl⟩
      obtain ⟨b, hb, hrep⟩ := h.exists_blueprint n hn
      exact ⟨b, hb, hrep.name.symm, hrep.isAbstract⟩
    · rintro ⟨b, hb, rfl, hconcrete⟩
      obtain ⟨n, hn, hrep⟩ := h.exists_node b hb hconcrete
      exact ⟨n, hn, hrep.name⟩
  · obtain ⟨n, hn, hkept, rfl⟩ := mem_steps_planOf.1 hs
    obtain ⟨b, hb, hrep⟩ := h.exists_blueprint n hn
    exact ⟨b, hb, n, hrep, (of_name_not_mem_prune h.nodup h.needsFirst hn hkept).1, rfl⟩

theorem sound_plan {r : Registry F} {p : Plan F} (hr : r.names.Nodup)
    (h : (r.plan ctx).2 = .ok p) : p.Sound (r.blueprints ctx) ctx := by
  obtain ⟨order, harises⟩ := exists_arises hr h
  exact harises.sound

theorem Plan.Sound.dependencies {p : Plan F} {s : Step F} {b : Blueprint F} {d : String}
    (h : p.Sound bs ctx) (hbs : (bs.map (·.name)).Nodup) (hs : s ∈ p.steps) (hb : b ∈ bs)
    (hname : b.name = s.name) (hd : d ∈ b.dependencies) :
    dealias p.aliases d ∈ s.dependencies := by
  obtain ⟨c, hc, n, hrep, -, rfl⟩ := h.step s hs
  obtain rfl : b = c := List.inj_on_of_nodup_map hbs hb hc (hname.trans hrep.name)
  show dealias p.aliases d ∈ n.dependencies
  rw [hrep.dependencies, mem_distinct]
  exact List.mem_map_of_mem hd

end Steward.Registry
