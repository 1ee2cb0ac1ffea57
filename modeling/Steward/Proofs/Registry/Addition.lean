import Steward.Proofs.Registry.Pruning
/-!
Adding a component to a registry that can be planned. What is added last and needed by nothing is
placed last, and the order of all else stays; so a plan grows at its end, and nowhere else.
-/
namespace Steward.Registry

namespace Order

variable {α : Type} {name : α → String} {needs : α → List String} {things placed order : List α}

theorem arrange_append {left : Nat} (hok : arrange name needs things left placed = .ok order)
    (more : List α) (k : Nat) :
    arrange name needs (things ++ more) (left + k) placed =
      arrange name needs (things ++ more) k order := by
  induction left generalizing placed with
  | zero =>
    obtain rfl : placed = order := by simpa [arrange] using hok
    rw [Nat.zero_add]
  | succ left ih =>
    rw [arrange] at hok
    split at hok
    · rename_i t ht
      have ht' : ready? name needs (things ++ more) (placed.map name) = some t := by
        rw [ready?, List.find?_append, ← ready?, ht, Option.some_or]
      rw [Nat.succ_add, arrange, ht']
      exact ih hok
    · cases hok

theorem sorted_concat {t : α} (hok : sorted name needs things = .ok order)
    (hfresh : name t ∉ things.map name) (hneeds : ∀ n ∈ needs t, n ∈ things.map name) :
    sorted name needs (things ++ [t]) = .ok (order ++ [t]) := by
  obtain ⟨hperm, -⟩ := sorted_perm hok
  have hplaced : ∀ n, n ∈ order.map name ↔ n ∈ things.map name := fun n =>
    (hperm.map name).mem_iff
  have hready : ready? name needs (things ++ [t]) (order.map name) = some t := by
    have hnone : things.find? (fun u =>
        !(order.map name).contains (name u) && (needs u).all (order.map name).contains) = none := by
      rw [List.find?_eq_none]
      intro u hu
      have hmem : name u ∈ order.map name := (hplaced _).2 (List.mem_map_of_mem hu)
      simp only [List.contains_iff_mem.2 hmem, Bool.not_true, Bool.false_and, Bool.false_eq_true,
        not_false_eq_true]
    have ht : (!(order.map name).contains (name t) &&
        (needs t).all (order.map name).contains) = true := by
      simp only [Bool.and_eq_true, Bool.not_eq_true', List.all_eq_true, List.contains_iff_mem]
      refine ⟨?_, fun n hn => (hplaced n).2 (hneeds n hn)⟩
      rwa [← Bool.not_eq_true, List.contains_iff_mem, hplaced]
    rw [ready?, List.find?_append, hnone, Option.none_or, List.find?_cons, ht]
  rw [sorted, List.length_append, List.length_singleton, arrange_append hok, arrange, hready]
  rfl

end Order

variable {F : Type} {ctx : Context} {aliases : List (String × String)} {bs cs : List (Blueprint F)}
  {b : Blueprint F}

theorem distinct_concat (names : List String) (n : String) :
    distinct (names ++ [n]) =
      if (distinct names).contains n then distinct names else distinct names ++ [n] := by
  rw [distinct, List.foldl_append]
  rfl

theorem distinct_eq_self_iff {names : List String} : distinct names = names ↔ names.Nodup := by
  constructor
  · intro h
    rw [← h]
    clear h
    induction names using List.reverseRecOn with
    | nil => exact List.nodup_nil
    | append_singleton names n ih =>
      rw [distinct_concat]
      split
      · exact ih
      · rename_i hn
        rw [← List.concat_eq_append]
        exact ih.concat (by simpa using hn)
  · intro h
    induction names using List.reverseRecOn with
    | nil => rfl
    | append_singleton names n ih =>
      rw [List.nodup_append] at h
      have hn : n ∉ names := fun hmem => h.2.2 n hmem n (by simp) rfl
      rw [distinct_concat, ih h.1, if_neg (by simpa using hn)]

def Blueprint.step (b : Blueprint F) (aliases : List (String × String)) (factory : F)
    (isManager : Bool) : Step F where
  name := b.name
  dependencies := distinct (b.dependencies.map (dealias aliases))
  links := b.links.map fun l => { l with target := dealias aliases l.target }
  isManager := isManager
  factory := factory

def Blueprint.node (b : Blueprint F) (aliases : List (String × String)) (factory : F)
    (isManager : Bool) : Node F :=
  ⟨b.step aliases factory isManager, b.condition⟩

/-- A plan with one more blueprint after all else: it becomes the last step, or is left out last,
or stands for something. -/
def Plan.followedBy (p : Plan F) (ctx : Context) (b : Blueprint F) : Plan F :=
  match b.kind with
  | .abstract resolver => { p with aliases := p.aliases ++ [(b.name, resolver.answer ctx)] }
  | .concrete factory isManager =>
    let n := b.node p.aliases factory isManager
    match skipReason? ctx p.skipped n with
    | some reason => { p with skipped := p.skipped ++ [⟨b.name, reason⟩] }
    | none => { p with steps := p.steps ++ [n.step p.skipped] }

theorem Represents.eq_node {n : Node F} {factory : F} {isManager : Bool}
    (h : Represents bs aliases b n) (hkind : b.kind = .concrete factory isManager) :
    n = b.node aliases factory isManager := by
  obtain ⟨⟨name, dependencies, links, isManager', factory'⟩, condition⟩ := n
  obtain ⟨rfl, hkind', rfl, rfl, rfl, -⟩ := h
  obtain ⟨rfl, rfl⟩ := Kind.concrete.inj (hkind'.symm.trans hkind)
  rfl

/-- Only what the references of a blueprint stand for matters to its node, and not which other
blueprints there are. -/
theorem Represents.unique {aliases' : List (String × String)} {n m : Node F}
    (hn : Represents bs aliases b n) (hm : Represents cs aliases' b m)
    (hsame : ∀ x ∈ b.references, dealias aliases' x = dealias aliases x) : n = m := by
  have hdependencies : b.dependencies.map (dealias aliases') =
      b.dependencies.map (dealias aliases) :=
    List.map_congr_left fun x hx => hsame x (List.mem_append_left _ hx)
  have hlinks : (b.links.map fun l => { l with target := dealias aliases' l.target }) =
      b.links.map fun l => { l with target := dealias aliases l.target } := by
    refine List.map_congr_left fun l hl => ?_
    rw [hsame l.target (List.mem_append_right _ (List.mem_map_of_mem hl))]
  rw [hn.eq_node hn.kind, hm.eq_node hn.kind, Blueprint.node, Blueprint.node, Blueprint.step,
    Blueprint.step, hdependencies, hlinks]

theorem Represents.unique_all {aliases' : List (String × String)} {ns ms : List (Node F)}
    {concretes : List (Blueprint F)}
    (hns : List.Forall₂ (Represents bs aliases) concretes ns)
    (hms : List.Forall₂ (Represents cs aliases') concretes ms)
    (hsame : ∀ b ∈ concretes, ∀ x ∈ b.references, dealias aliases' x = dealias aliases x) :
    ns = ms := by
  induction hns generalizing ms with
  | nil =>
    cases hms
    rfl
  | cons hn _ ih =>
    rw [List.forall_mem_cons] at hsame
    cases hms with
    | cons hm hrest => rw [hn.unique hm hsame.1, ih hrest hsame.2]

theorem nodes_concat {ns ms : List (Node F)} (hns : nodes bs aliases = .ok ns)
    (hms : nodes (bs ++ [b]) aliases = .ok ms) (hconcrete : b.isAbstract = false) :
    ∃ n, ms = ns ++ [n] ∧ Represents (bs ++ [b]) aliases b n := by
  have hall := represents_of_nodes hms
  rw [List.filter_append, List.filter_singleton, hconcrete] at hall
  obtain ⟨others, n, rfl, hothers, hn⟩ := exists_concat_of_forall₂ hall
  obtain rfl := Represents.unique_all (represents_of_nodes hns) hothers fun _ _ _ _ => rfl
  exact ⟨n, rfl, hn⟩

theorem nodes_concat_abstract {aliases' : List (String × String)} {ns ms : List (Node F)}
    (hns : nodes bs aliases = .ok ns) (hms : nodes (bs ++ [b]) aliases' = .ok ms)
    (habstract : b.isAbstract = true)
    (hsame : ∀ c ∈ bs, c.isAbstract = false → ∀ x ∈ c.references,
      dealias aliases' x = dealias aliases x) : ms = ns := by
  have hall := represents_of_nodes hms
  rw [List.filter_append, List.filter_singleton, habstract, Bool.not_true, cond_false,
    List.append_nil] at hall
  refine (Represents.unique_all (represents_of_nodes hns) hall fun c hc => ?_).symm
  obtain ⟨hc, hconcrete⟩ := List.mem_filter.1 hc
  exact hsame c hc (by simpa using hconcrete)

theorem aliases_concat {bs : List (Blueprint F)} {b : Blueprint F}
    {aliases aliases' : List (String × String)} (hnodup : ((bs ++ [b]).map (·.name)).Nodup)
    (haliases : (resolveAll bs ctx bs).2 = .ok aliases)
    (haliases' : (resolveAll (bs ++ [b]) ctx (bs ++ [b])).2 = .ok aliases') :
    aliases' = aliases ++ (aliasOf? ctx b).toList := by
  have hsublist : bs.Sublist (bs ++ [b]) := List.sublist_append_left _ _
  rw [((resolveAll_eq_ok_iff hnodup).1 haliases').2,
    ((resolveAll_eq_ok_iff (hnodup.sublist (hsublist.map _))).1 haliases).2, List.filterMap_append]
  cases h : aliasOf? ctx b <;> simp [h]

theorem dealias_concat {pair : String × String} {name : String} (hne : name ≠ pair.1) :
    dealias (aliases ++ [pair]) name = dealias aliases name := by
  have hlookup : [pair].lookup name = none := by
    rw [List.lookup_cons, beq_false_of_ne hne]
    rfl
  rw [dealias, dealias, List.lookup_append, hlookup, Option.or_none]

theorem reference_ne_of_nodes {ns : List (Node F)} {c : Blueprint F} {name x : String}
    (hns : nodes bs (bs.filterMap (aliasOf? ctx)) = .ok ns) (hfresh : name ∉ bs.map (·.name))
    (hc : c ∈ bs) (hconcrete : c.isAbstract = false) (hx : x ∈ c.references) : x ≠ name := by
  rintro rfl
  obtain ⟨hknown, -⟩ := exists_nodes_iff.1 ⟨ns, hns⟩ c hc hconcrete x hx
  rw [dealias, lookup_aliases_of_not_mem hfresh, Option.getD_none, concrete?_isSome_iff] at hknown
  obtain ⟨a, ha, rfl, -⟩ := hknown
  exact hfresh (List.mem_map_of_mem ha)

theorem step_concat {skipped : List Skipped} {s : Skipped} {n : Node F}
    (h : s.name ∉ n.prerequisites) : n.step (skipped ++ [s]) = n.step skipped := by
  have hlinks : (n.links.filter fun l => !(skipped ++ [s]).any fun s => s.name == l.target) =
      n.links.filter fun l => !skipped.any fun s => s.name == l.target := by
    refine List.filter_congr fun l hl => ?_
    have hne : s.name ≠ l.target := fun heq =>
      h (heq ▸ List.mem_append_right _ (List.mem_map_of_mem hl))
    simp [hne]
  rw [Node.step, Node.step, hlinks]

/-- A node that comes last and that no other node needs is left out last, or becomes the last
step. -/
theorem planOf_concat {order : List (Node F)} {n : Node F} (hfresh : n.name ∉ order.map (·.name))
    (hunneeded : ∀ m ∈ order, n.name ∉ m.prerequisites) :
    planOf ctx aliases (order ++ [n]) =
      match skipReason? ctx (prune ctx order) n with
      | some reason =>
        { planOf ctx aliases order with skipped := prune ctx order ++ [⟨n.name, reason⟩] }
      | none =>
        { planOf ctx aliases order with
          steps := (planOf ctx aliases order).steps ++ [n.step (prune ctx order)] } := by
  rcases hreason : skipReason? ctx (prune ctx order) n with _ | reason
  · have hprune : prune ctx (order ++ [n]) = prune ctx order := by
      rw [prune_concat, skippedOf?, hreason]
      simp
    have hkept : ((prune ctx order).any fun s => s.name == n.name) = false := by
      rw [← Bool.not_eq_true, any_name_iff]
      exact fun hmem => hfresh ((prune_sublist order).subset hmem)
    simp [planOf, hprune, hkept]
  · have hprune : prune ctx (order ++ [n]) = prune ctx order ++ [⟨n.name, reason⟩] := by
      rw [prune_concat, skippedOf?, hreason]
      rfl
    generalize hs : Skipped.mk n.name reason = s at hprune
    have hname : s.name = n.name := by rw [← hs]
    have hself : ((prune ctx order ++ [s]).any fun t => t.name == n.name) = true := by
      simp [hname]
    have hkept : (order.filter fun m => !(prune ctx order ++ [s]).any fun t => t.name == m.name) =
        order.filter fun m => !(prune ctx order).any fun t => t.name == m.name := by
      refine List.filter_congr fun m hm => ?_
      have hne : s.name ≠ m.name := fun heq =>
        hfresh (hname ▸ heq ▸ List.mem_map_of_mem hm)
      simp [hne]
    have hsteps : (planOf ctx aliases (order ++ [n])).steps = (planOf ctx aliases order).steps := by
      rw [planOf, planOf, hprune, List.filter_append, hkept, List.filter_singleton, hself,
        Bool.not_true, cond_false, List.append_nil]
      refine List.map_congr_left fun m hm => step_concat ?_
      rw [hname]
      exact hunneeded m (List.mem_of_mem_filter hm)
    dsimp only
    rw [hs, ← hsteps, ← hprune]
    rfl

theorem plan_followedBy {r s : Registry F} {d : Descriptor F} {p q : Plan F}
    (hs : s.descriptors = r.descriptors ++ [d]) (hnodup : s.names.Nodup)
    (hp : (r.plan ctx).2 = .ok p) (hq : (s.plan ctx).2 = .ok q) :
    q = p.followedBy ctx (d.effective ctx) := by
  have hblueprints : s.blueprints ctx = r.blueprints ctx ++ [d.effective ctx] := by
    simp [blueprints, hs]
  have hnodup' : ((s.blueprints ctx).map (·.name)).Nodup := by rwa [names_blueprints]
  obtain ⟨aliases, ns, order, haliases, hns, horder, rfl⟩ := plan_eq_ok_iff.1 hp
  obtain ⟨aliases', ms, order', haliases', hms, horder', rfl⟩ := plan_eq_ok_iff.1 hq
  rw [hblueprints] at hnodup' haliases' hms
  generalize r.blueprints ctx = bs at *
  generalize d.effective ctx = b at *
  have hfresh : b.name ∉ bs.map (·.name) := by
    rw [List.map_append, List.nodup_append] at hnodup'
    exact fun hmem => hnodup'.2.2 _ hmem b.name (by simp) rfl
  have hgrown := aliases_concat hnodup' haliases haliases'
  obtain ⟨-, rfl⟩ := (resolveAll_eq_ok_iff
    (hnodup'.sublist ((List.sublist_append_left bs [b]).map _))).1 haliases
  cases hkind : b.kind with
  | abstract resolver =>
    rw [aliasOf?, hkind] at hgrown
    subst hgrown
    obtain rfl := nodes_concat_abstract hns hms (by rw [Blueprint.isAbstract, hkind])
      fun c hc hconcrete x hx => dealias_concat (reference_ne_of_nodes hns hfresh hc hconcrete hx)
    obtain rfl := Except.ok.inj (horder.symm.trans horder')
    rw [Plan.followedBy, hkind]
    rfl
  | concrete factory isManager =>
    rw [aliasOf?, hkind, Option.toList_none, List.append_nil] at hgrown
    subst hgrown
    obtain ⟨n, rfl, hn⟩ := nodes_concat hns hms (by rw [Blueprint.isAbstract, hkind])
    obtain ⟨hperm, -⟩ := Order.sorted_perm horder
    have hname : n.name ∉ ns.map (·.name) := by
      rw [names_nodes hns, hn.name]
      exact fun hmem => hfresh ((List.filter_sublist.map _).subset hmem)
    have hneeds : ∀ m ∈ n.prerequisites, m ∈ ns.map (·.name) := by
      intro m hm
      have hmem := prerequisites_mem_names hms n (by simp) m hm
      rw [List.map_append, List.mem_append, List.map_singleton, List.mem_singleton, hn.name] at hmem
      exact hmem.resolve_right (hn.isConcrete m hm).2
    have hunneeded : ∀ m ∈ order, n.name ∉ m.prerequisites := fun m hm hneeded =>
      hname (prerequisites_mem_names hns m (hperm.mem_iff.1 hm) _ hneeded)
    have hsorted := Order.sorted_concat horder hname hneeds
    obtain rfl := Except.ok.inj (hsorted.symm.trans horder')
    rw [planOf_concat (fun hmem => hname ((hperm.map _).subset hmem)) hunneeded, Plan.followedBy,
      hkind, hn.eq_node hkind]
    rfl

/-- A component that is added last, whose condition holds and that refers only to what is in the
plan, becomes the last step as it is declared. -/
theorem plan_concat {r s : Registry F} {d : Descriptor F} {p q : Plan F} {factory : F}
    {isManager : Bool} (hs : s.descriptors = r.descriptors ++ [d]) (hnodup : s.names.Nodup)
    (hp : (r.plan ctx).2 = .ok p) (hq : (s.plan ctx).2 = .ok q)
    (hkind : (d.effective ctx).kind = .concrete factory isManager)
    (hcondition : (d.effective ctx).condition.holds ctx = true)
    (hrefers : ∀ n ∈ (d.effective ctx).references, dealias p.aliases n ∈ p.order) :
    q = { p with steps := p.steps ++ [(d.effective ctx).step p.aliases factory isManager] } := by
  have hr : r.names.Nodup := by
    rw [Registry.names, hs, List.map_append] at hnodup
    exact (List.nodup_append.1 hnodup).1
  have hstays : ∀ x ∈ (d.effective ctx).references, dealias p.aliases x ∉ namesOf p.skipped :=
    fun x hx hskipped =>
      (List.nodup_append.1 (sound_plan hr hp).nodup).2.2 _ (hrefers x hx) _ hskipped rfl
  have hreason : skipReason? ctx p.skipped ((d.effective ctx).node p.aliases factory isManager) =
      none := by
    rw [← Option.not_isSome_iff_eq_none, skipReason?_isSome_iff]
    rintro (hfalse | ⟨m, hm, hskipped⟩)
    · rw [Blueprint.node, hcondition] at hfalse
      cases hfalse
    · obtain ⟨x, hx, rfl⟩ := List.mem_map.1 (mem_distinct.1 hm)
      exact hstays x (List.mem_append_left _ hx) hskipped
  have hlinks : ((d.effective ctx).node p.aliases factory isManager).step p.skipped =
      (d.effective ctx).step p.aliases factory isManager := by
    have hall : ((d.effective ctx).step p.aliases factory isManager).links.filter
        (fun l => !p.skipped.any fun s => s.name == l.target) =
          ((d.effective ctx).step p.aliases factory isManager).links := by
      refine List.filter_eq_self.2 fun l hl => ?_
      obtain ⟨k, hk, rfl⟩ := List.mem_map.1 hl
      rw [Bool.not_eq_true', ← Bool.not_eq_true, any_name_iff]
      exact hstays _ (List.mem_append_right _ (List.mem_map_of_mem hk))
    rw [Node.step, Blueprint.node, hall]
  rw [plan_followedBy hs hnodup hp hq, Plan.followedBy, hkind]
  dsimp only
  rw [hreason, hlinks]

theorem descriptors_of_register {r s : Registry F} {d : Descriptor F} (h : r.register d = .ok s) :
    s.descriptors = r.descriptors ++ [d] := by
  obtain ⟨-, -, h⟩ := bind_eq_ok.1 h
  split at h
  · cases h
  · obtain rfl := Except.ok.inj h
    rfl

/-- Adding a component last disturbs no other: the steps, the components that are left out and what
abstract names stand for are the same as before, each in the same order, and the component comes
after them. If it is abstract, it stands for what its resolver answers. Otherwise it is left out if
its condition is false or it depends on what is left out, and becomes a step if not. -/
theorem plan_extends {ds : List (Descriptor F)} {r s : Registry F} {d : Descriptor F}
    {p q : Plan F} (hregistry : Registry.empty.registerAll ds = .ok r) (hs : r.register d = .ok s)
    (hp : (r.plan ctx).2 = .ok p) (hq : (s.plan ctx).2 = .ok q) :
    q = p.followedBy ctx (d.effective ctx) :=
  plan_followedBy (descriptors_of_register hs)
    (nodup_names_register hs (nodup_names_registerAll hregistry List.nodup_nil)) hp hq

/-- What a household gets last: a mailer, which is built, but has no link onto the search. -/
def mailer : Descriptor Unit :=
  { Blueprint.concrete "mailer" () with
    dependencies := ["storage", "disk"]
    links := [{ target := "search" }, { target := "storage", toDestroy := true }] }

/-- A digest of what was searched, of which there is nothing. -/
def digest : Descriptor Unit :=
  { toBlueprint := (Blueprint.concrete "digest" ()).dependsOn "search" }

theorem plan_extends_household :
    (∃ p q, (household.plan default).2 = .ok p ∧
      (plan ⟨described ++ [mailer]⟩ default).2 = .ok q ∧
      q.order = ["disk", "cache", "api", "mailer"] ∧
      q = p.followedBy default mailer.toBlueprint) ∧
    ∃ p q, (household.plan default).2 = .ok p ∧
      (plan ⟨described ++ [digest]⟩ default).2 = .ok q ∧
      q.skipped = [⟨"search", "build condition is false"⟩,
        ⟨"report", "depends on skipped component 'search'"⟩,
        ⟨"digest", "depends on skipped component 'search'"⟩] ∧
      q = p.followedBy default digest.toBlueprint := by
  have hplan : ∃ p, (household.plan default).2 = .ok p := ⟨_, rfl⟩
  have hmailer : ∃ q, (plan ⟨described ++ [mailer]⟩ default).2 = .ok q ∧
      q.order = ["disk", "cache", "api", "mailer"] := ⟨_, rfl, by decide +kernel⟩
  have hdigest : ∃ q, (plan ⟨described ++ [digest]⟩ default).2 = .ok q ∧
      q.skipped = [⟨"search", "build condition is false"⟩,
        ⟨"report", "depends on skipped component 'search'"⟩,
        ⟨"digest", "depends on skipped component 'search'"⟩] := ⟨_, rfl, by decide +kernel⟩
  have hregister : household.register mailer = .ok ⟨described ++ [mailer]⟩ ∧
      household.register digest = .ok ⟨described ++ [digest]⟩ := ⟨rfl, rfl⟩
  obtain ⟨p, hp⟩ := hplan
  obtain ⟨q, hq, horder⟩ := hmailer
  obtain ⟨q', hq', hskipped⟩ := hdigest
  exact ⟨⟨p, q, hp, hq, horder, plan_extends registerAll_household hregister.1 hp hq⟩,
    p, q', hp, hq', hskipped, plan_extends registerAll_household hregister.2 hp hq'⟩

end Steward.Registry
