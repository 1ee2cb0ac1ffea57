import Steward.Proofs.Registry.Plan
import Steward.Proofs.Registry.Reference
/-!
Which registries can be planned. A plan is made exactly if every abstract name stands for something,
every reference of a concrete component means another concrete one, and the references close no
cycle. Conditions and the operations that links follow have no say in it.
-/
namespace Steward.Registry

variable {F : Type} {ctx : Context} {aliases : List (String × String)} {bs : List (Blueprint F)}
  {ds : List (Descriptor F)} {r s : Registry F}

theorem refer_eq_ok {owner target : String}
    (hsome : (concrete? bs (dealias aliases target)).isSome = true)
    (hne : dealias aliases target ≠ owner) :
    refer bs aliases owner target = .ok (dealias aliases target) := by
  simp only [refer]
  rw [if_neg (by simpa [Option.isSome_iff_ne_none] using hsome), if_neg hne]

theorem of_refer_eq_selfReference {owner target name : String}
    (h : refer bs aliases owner target = .error (.selfReference name)) :
    owner = name ∧ dealias aliases target = name := by
  simp only [refer] at h
  split at h
  · cases h
  · split at h
    · rename_i howner
      cases h
      exact ⟨rfl, howner⟩
    · cases h

def Blueprint.IsConnectable (b : Blueprint F) (bs : List (Blueprint F))
    (aliases : List (String × String)) : Prop :=
  ∀ d ∈ b.references, (concrete? bs (dealias aliases d)).isSome = true ∧
    dealias aliases d ≠ b.name

theorem exists_node? {b : Blueprint F} (h : b.isAbstract = false → b.IsConnectable bs aliases) :
    ∃ o, node? bs aliases b = .ok o := by
  unfold node?
  split
  · exact ⟨none, rfl⟩
  · rename_i factory isManager hkind
    have hb : b.IsConnectable bs aliases := h (by rw [Blueprint.isAbstract, hkind])
    have hrefer : ∀ d ∈ b.references,
        refer bs aliases b.name d = .ok (dealias aliases d) := fun d hd =>
      refer_eq_ok (hb d hd).1 (hb d hd).2
    obtain ⟨dependencies, hdependencies⟩ := exists_mapM_ok fun d hd =>
      ⟨_, hrefer d (List.mem_append_left _ hd)⟩
    have hlink : ∀ l ∈ b.links, ∃ l', (do
        return { l with target := ← refer bs aliases b.name l.target } : Except Fault Link) =
          .ok l' := fun l hl =>
      ⟨{ l with target := dealias aliases l.target }, by
        rw [hrefer l.target (List.mem_append_right _ (List.mem_map_of_mem hl))]; rfl⟩
    obtain ⟨links, hlinks⟩ := exists_mapM_ok hlink
    rw [hdependencies, hlinks]
    exact ⟨_, rfl⟩

theorem Represents.mem_prerequisites_iff {b : Blueprint F} {n : Node F} {m : String}
    (h : Represents bs aliases b n) :
    m ∈ n.prerequisites ↔ m ∈ b.references.map (dealias aliases) := by
  simp only [Node.prerequisites, Blueprint.references, h.dependencies, h.links, List.mem_append,
    mem_distinct, List.map_append, List.map_map, Function.comp_def]

theorem exists_nodes_iff : (∃ ns, nodes bs aliases = .ok ns) ↔
    ∀ b ∈ bs, b.isAbstract = false → b.IsConnectable bs aliases := by
  constructor
  · rintro ⟨ns, hns⟩ b hb hconcrete d hd
    obtain ⟨n, -, hn⟩ := exists_right_of_forall₂ (represents_of_nodes hns)
      (List.mem_filter.2 ⟨hb, by simp [hconcrete]⟩)
    exact hn.isConcrete _ (hn.mem_prerequisites_iff.2 (List.mem_map_of_mem hd))
  · intro h
    obtain ⟨found, hfound⟩ := exists_mapM_ok fun b hb => exists_node? (h b hb)
    exact ⟨found.filterMap id, by rw [nodes, hfound]; rfl⟩

theorem requires_nodes_iff {ns : List (Node F)} (hns : nodes bs aliases = .ok ns) {a c : String} :
    Order.Requires (·.name) Node.prerequisites ns a c ↔
      ∃ b ∈ bs, b.isAbstract = false ∧ b.name = a ∧ c ∈ b.references.map (dealias aliases) := by
  have hrepresents := represents_of_nodes hns
  constructor
  · rintro ⟨n, hn, rfl, hc⟩
    obtain ⟨b, hb, hrep⟩ := exists_left_of_forall₂ hrepresents hn
    exact ⟨b, List.mem_of_mem_filter hb, hrep.isAbstract, hrep.name.symm,
      hrep.mem_prerequisites_iff.1 hc⟩
  · rintro ⟨b, hb, hconcrete, rfl, hc⟩
    obtain ⟨n, hn, hrep⟩ := exists_right_of_forall₂ hrepresents
      (List.mem_filter.2 ⟨hb, by simp [hconcrete]⟩)
    exact ⟨n, hn, hrep.name, hrep.mem_prerequisites_iff.2 hc⟩

theorem requires_nodes_eq_refers {ns : List (Node F)} (hbs : (bs.map (·.name)).Nodup)
    (hns : nodes bs (bs.filterMap (aliasOf? ctx)) = .ok ns) :
    Order.Requires (·.name) Node.prerequisites ns = Refers bs ctx := by
  funext a c
  rw [requires_nodes_iff hns, funext (dealias_aliases hbs)]
  rfl

theorem prerequisites_mem_names {ns : List (Node F)} (hns : nodes bs aliases = .ok ns) :
    ∀ n ∈ ns, ∀ m ∈ n.prerequisites, m ∈ ns.map (·.name) := by
  intro n hn m hm
  obtain ⟨b, -, hrep⟩ := exists_left_of_forall₂ (represents_of_nodes hns) hn
  obtain ⟨c, hc, rfl, hconcrete⟩ := concrete?_isSome_iff.1 (hrep.isConcrete m hm).1
  rw [names_nodes hns]
  exact List.mem_map_of_mem (List.mem_filter.2 ⟨hc, by simp [hconcrete]⟩)

structure Acceptable (bs : List (Blueprint F)) (ctx : Context) : Prop where
  abstracts : ∀ a ∈ bs, ∀ resolver, a.kind = .abstract resolver → Resolves bs ctx a.name resolver
  references : ∀ b ∈ bs, b.isAbstract = false → ∀ d ∈ b.references,
    IsConcrete bs (meaning bs ctx d) ∧ meaning bs ctx d ≠ b.name
  acyclic : ∀ n, ¬ Relation.TransGen (Refers bs ctx) n n

theorem exists_plan_iff (hr : r.names.Nodup) :
    (∃ p, (r.plan ctx).2 = .ok p) ↔ Acceptable (r.blueprints ctx) ctx := by
  have hbs : ((r.blueprints ctx).map (·.name)).Nodup := by rwa [names_blueprints]
  have hmeaning : dealias ((r.blueprints ctx).filterMap (aliasOf? ctx)) =
      meaning (r.blueprints ctx) ctx := funext (dealias_aliases hbs)
  have hnodes : (∃ ns, nodes (r.blueprints ctx)
      ((r.blueprints ctx).filterMap (aliasOf? ctx)) = .ok ns) ↔ _ := exists_nodes_iff
  simp only [Blueprint.IsConnectable, hmeaning, concrete?_isSome_iff] at hnodes
  have hsorted : ∀ {ns}, nodes (r.blueprints ctx) ((r.blueprints ctx).filterMap (aliasOf? ctx)) =
      .ok ns → ((∃ order, Order.sorted (·.name) Node.prerequisites ns = .ok order) ↔
        ∀ n, ¬ Relation.TransGen (Refers (r.blueprints ctx) ctx) n n) := by
    intro ns hns
    rw [Order.exists_sorted_iff (nodup_names_nodes hns hbs) (prerequisites_mem_names hns),
      Order.Acyclic, requires_nodes_eq_refers hbs hns]
  constructor
  · rintro ⟨p, hp⟩
    obtain ⟨aliases, ns, order, haliases, hns, horder, -⟩ := plan_eq_ok_iff.1 hp
    obtain ⟨habstracts, rfl⟩ := (resolveAll_eq_ok_iff hbs).1 haliases
    exact ⟨habstracts, hnodes.1 ⟨ns, hns⟩, (hsorted hns).1 ⟨order, horder⟩⟩
  · intro h
    obtain ⟨ns, hns⟩ := hnodes.2 h.references
    obtain ⟨order, horder⟩ := (hsorted hns).2 h.acyclic
    exact ⟨_, plan_eq_ok_iff.2
      ⟨_, ns, order, (resolveAll_eq_ok_iff hbs).2 ⟨h.abstracts, rfl⟩, hns, horder, rfl⟩⟩

/-- A name is that of an abstract component. -/
def IsAbstract (bs : List (Blueprint F)) (name : String) : Prop :=
  ∃ b ∈ bs, b.name = name ∧ b.isAbstract = true

theorem not_isAbstract_of_isConcrete {name : String} (hbs : (bs.map (·.name)).Nodup)
    (h : IsConcrete bs name) : ¬ IsAbstract bs name := by
  rintro ⟨a, ha, rfl, habstract⟩
  obtain ⟨b, hb, hname, hconcrete⟩ := h
  obtain rfl := List.inj_on_of_nodup_map hbs hb ha hname
  rw [hconcrete] at habstract
  exact Bool.noConfusion habstract

theorem isAbstract_of_meaning_ne {name : String} (h : meaning bs ctx name ≠ name) :
    IsAbstract bs name := by
  obtain ⟨a, ha, hname, resolver, hkind, -⟩ := exists_abstract_of_meaning_ne h
  exact ⟨a, ha, hname, by rw [Blueprint.isAbstract, hkind]⟩

theorem Acceptable.isConcrete_meaning {name : String} (h : Acceptable bs ctx)
    (hbs : (bs.map (·.name)).Nodup) (hname : IsAbstract bs name) :
    IsConcrete bs (meaning bs ctx name) := by
  obtain ⟨a, ha, rfl, habstract⟩ := hname
  obtain ⟨resolver, hkind⟩ : ∃ resolver, a.kind = .abstract resolver := by
    cases hkind : a.kind with
    | abstract resolver => exact ⟨resolver, rfl⟩
    | concrete factory isManager => simp [Blueprint.isAbstract, hkind] at habstract
  obtain ⟨b, hb, hconcrete, hanswer, -⟩ := h.abstracts a ha resolver hkind
  have hmeaning : meaning bs ctx a.name = resolver.answer ctx := by
    rw [meaning, find?_key_of_mem hbs ha, Option.map_some, Option.getD_some, Blueprint.standsFor,
      hkind]
  exact ⟨b, hb, hanswer.trans hmeaning.symm, hconcrete⟩

theorem Acceptable.meaning_eq_iff {name : String} (h : Acceptable bs ctx)
    (hbs : (bs.map (·.name)).Nodup) : meaning bs ctx name = name ↔ ¬ IsAbstract bs name := by
  constructor
  · intro hmeaning habstract
    have hconcrete := h.isConcrete_meaning hbs habstract
    rw [hmeaning] at hconcrete
    exact not_isAbstract_of_isConcrete hbs hconcrete habstract
  · intro hname
    by_contra hne
    exact hname (isAbstract_of_meaning_ne hne)

theorem Acceptable.meaning_meaning (h : Acceptable bs ctx) (hbs : (bs.map (·.name)).Nodup)
    (name : String) : meaning bs ctx (meaning bs ctx name) = meaning bs ctx name := by
  by_cases hname : IsAbstract bs name
  · rw [h.meaning_eq_iff hbs]
    exact not_isAbstract_of_isConcrete hbs (h.isConcrete_meaning hbs hname)
  · have hself := (h.meaning_eq_iff hbs).2 hname
    rw [hself, hself]

theorem check_of_register {d : Descriptor F} (h : r.register d = .ok s)
    (hr : ∀ e ∈ r.descriptors, e.check = .ok ()) : ∀ e ∈ s.descriptors, e.check = .ok () := by
  obtain ⟨_, hcheck, h⟩ := bind_eq_ok.1 h
  split at h
  · cases h
  · obtain rfl := Except.ok.inj h
    intro e he
    rcases List.mem_append.1 he with he | he
    · exact hr e he
    · rwa [List.mem_singleton.1 he]

theorem check_of_registerAll (h : r.registerAll ds = .ok s)
    (hr : ∀ d ∈ r.descriptors, d.check = .ok ()) : ∀ d ∈ s.descriptors, d.check = .ok () := by
  induction ds generalizing r with
  | nil =>
    obtain rfl := Except.ok.inj h
    exact hr
  | cons d ds ih =>
    obtain ⟨r', hr', h⟩ := bind_eq_ok.1 h
    exact ih h (check_of_register hr' hr)

theorem refersTo_iff {b : Blueprint F} {name : String} :
    b.refersTo name = true ↔ name ∈ b.references := by
  simp [Blueprint.refersTo, Blueprint.references]

theorem name_not_mem_references {d : Descriptor F} (h : d.check = .ok ()) :
    d.name ∉ (d.effective ctx).references := by
  rw [← refersTo_iff]
  unfold Descriptor.check at h
  split at h
  · cases h
  · rename_i hown
    unfold Descriptor.effective
    split
    · rename_i mode other hstandIn
      rw [hstandIn] at h
      split
      · dsimp only at h
        split at h
        · cases h
        · assumption
      · exact hown
    · exact hown

theorem of_node?_eq_selfReference {b : Blueprint F} {name : String}
    (h : node? bs aliases b = .error (.selfReference name)) :
    b.isAbstract = false ∧ b.name = name ∧ ∃ d ∈ b.references, dealias aliases d = name := by
  unfold node? at h
  split at h
  · cases h
  · rename_i factory isManager hkind
    refine ⟨by rw [Blueprint.isAbstract, hkind], ?_⟩
    rcases bind_eq_error.1 h with h | ⟨dependencies, -, h⟩
    · obtain ⟨d, hd, h⟩ := exists_of_mapM_error h
      exact ⟨(of_refer_eq_selfReference h).1, d, List.mem_append_left _ hd,
        (of_refer_eq_selfReference h).2⟩
    · rcases bind_eq_error.1 h with h | ⟨links, -, h⟩
      · obtain ⟨l, hl, h⟩ := exists_of_mapM_error h
        rcases bind_eq_error.1 h with h | ⟨target, -, h⟩
        · exact ⟨(of_refer_eq_selfReference h).1, l.target,
            List.mem_append_right _ (List.mem_map_of_mem hl), (of_refer_eq_selfReference h).2⟩
        · cases h
      · cases h

/-- Planning finds a reference of a component to itself only if its own name stands there. -/
theorem of_plan_eq_selfReference {name : String} (hr : r.names.Nodup)
    (h : (r.plan ctx).2 = .error (.selfReference name)) :
    ∃ b ∈ r.blueprints ctx, b.isAbstract = false ∧ b.name = name ∧
      ∃ d ∈ b.references, meaning (r.blueprints ctx) ctx d = name := by
  have hbs : ((r.blueprints ctx).map (·.name)).Nodup := by rwa [names_blueprints]
  rw [plan_snd] at h
  rcases bind_eq_error.1 h with h | ⟨aliases, haliases, h⟩
  · obtain ⟨_, _, h⟩ := resolveAll_eq_error h
    cases h
  · obtain ⟨-, rfl⟩ := (resolveAll_eq_ok_iff hbs).1 haliases
    rcases bind_eq_error.1 h with h | ⟨ns, -, h⟩
    · rcases bind_eq_error.1 h with h | ⟨found, -, h⟩
      · obtain ⟨b, hb, h⟩ := exists_of_mapM_error h
        obtain ⟨hconcrete, hname, d, hd, hmeaning⟩ := of_node?_eq_selfReference h
        exact ⟨b, hb, hconcrete, hname, d, hd, by rwa [dealias_aliases hbs] at hmeaning⟩
      · cases h
    · split at h <;> cases h

/-- A registry can be planned exactly if its blueprints are acceptable. And where planning finds a
reference of a component to itself, an abstract name stands for that component. -/
theorem plan_accepts_exactly (hregistry : Registry.empty.registerAll ds = .ok r) (ctx : Context) :
    ((∃ p, (r.plan ctx).2 = .ok p) ↔ Acceptable (r.blueprints ctx) ctx) ∧
    ∀ name, (r.plan ctx).2 = .error (.selfReference name) →
      ∃ b ∈ r.blueprints ctx, b.isAbstract = false ∧ b.name = name ∧
        ∃ a ∈ r.blueprints ctx, a.name ∈ b.references ∧
          ∃ resolver, a.kind = .abstract resolver ∧ resolver.answer ctx = name := by
  have hr : r.names.Nodup := nodup_names_registerAll hregistry List.nodup_nil
  refine ⟨exists_plan_iff hr, fun name h => ?_⟩
  obtain ⟨b, hb, hconcrete, rfl, d, hd, hmeaning⟩ := of_plan_eq_selfReference hr h
  have hne : meaning (r.blueprints ctx) ctx d ≠ d := by
    obtain ⟨descriptor, hdescriptor, rfl⟩ := List.mem_map.1 hb
    have hcheck : descriptor.check = .ok () :=
      check_of_registerAll hregistry (fun _ h => absurd h List.not_mem_nil) _ hdescriptor
    rw [hmeaning, Descriptor.effective_name]
    rintro rfl
    exact name_not_mem_references hcheck hd
  obtain ⟨a, ha, rfl, resolver, hkind, hanswer⟩ := exists_abstract_of_meaning_ne hne
  exact ⟨b, hb, hconcrete, rfl, a, ha, hd, resolver, hkind, hanswer.trans hmeaning⟩

/-- A household keeps its storage on a disk and searches nothing, so it reports nothing either. -/
def described : List (Descriptor Unit) :=
  [{ toBlueprint := (Blueprint.concrete "report" ()).dependsOn "search" },
    { toBlueprint := ((Blueprint.concrete "search" ()).dependsOn "cache").buildOnlyIf false },
    { Blueprint.concrete "api" () with
      dependencies := ["storage", "disk", "cache"]
      links := [{ target := "search" }, { target := "storage", toDestroy := true }] },
    { toBlueprint := (Blueprint.concrete "cache" ()).dependsOn "storage"
      standIn := some ("test", Blueprint.concrete "memory" ()) },
    { toBlueprint := Blueprint.abstract "storage" ⟨"resolve", fun _ => "disk"⟩ },
    { toBlueprint := (Blueprint.concrete "disk" ()).implementing "storage" }]

def household : Registry Unit := ⟨described⟩

theorem registerAll_household : Registry.empty.registerAll described = .ok household := rfl

/-- A disk that depends on the storage, which is the disk itself. -/
def looped : List (Descriptor Unit) :=
  [{ toBlueprint := Blueprint.abstract "storage" ⟨"resolve", fun _ => "disk"⟩ },
    { toBlueprint := ((Blueprint.concrete "disk" ()).implementing "storage").dependsOn "storage" }]

theorem plan_accepts_exactly_household :
    Acceptable (household.blueprints default) default ∧
      (plan ⟨looped⟩ default).2 = .error (.selfReference "disk") ∧
      ∃ b ∈ blueprints ⟨looped⟩ default, b.isAbstract = false ∧ b.name = "disk" ∧
        ∃ a ∈ blueprints ⟨looped⟩ default, a.name ∈ b.references ∧
          ∃ resolver, a.kind = .abstract resolver ∧ resolver.answer default = "disk" := by
  have hlooped : Registry.empty.registerAll looped = .ok ⟨looped⟩ := rfl
  exact ⟨(plan_accepts_exactly registerAll_household default).1.1 ⟨_, rfl⟩, rfl,
    (plan_accepts_exactly hlooped default).2 "disk" rfl⟩

end Steward.Registry
