import Steward.Core.Program
import Steward.Proofs.Registry.Acceptance
/-!
Which functions of the application are called for a plan. Planning is written as a program whose
only calls are those of resolvers and conditions, and nothing else in it can look at what they
answer. Run under given circumstances it returns the plan, so its calls are the ones that the plan
takes: resolvers in the order of registration, up to the first one that fails, and conditions in
the order of registration, if nothing else is wrong.
-/
namespace Steward.Registry

variable {F α β : Type} {ctx : Context} {bs cs : List (Blueprint F)} {ds : List (Descriptor F)}
  {r : Registry F}

/-- A call of a function of the application for the sake of a component. -/
inductive Inquiry where
  | resolver (name : String) (question : Question String)
  | condition (name : String) (question : Question Bool)

namespace Inquiry

abbrev Answer : Inquiry → Type
  | .resolver _ _ => String
  | .condition _ _ => Bool

/-- The component that the call is made for. -/
def name : Inquiry → String
  | .resolver name _ => name
  | .condition name _ => name

def note : Inquiry → String
  | .resolver _ question => question.note
  | .condition _ question => question.note

def answer (ctx : Context) : (i : Inquiry) → i.Answer
  | .resolver _ question => question.answer ctx
  | .condition _ question => question.answer ctx

end Inquiry

/-- The calls that a program makes under given circumstances, in order, and what it returns. -/
def inquire (ctx : Context) : Program Inquiry.Answer α → List Inquiry × α
  | .done a => ([], a)
  | .call i next =>
    let (asked, a) := inquire ctx (next (i.answer ctx))
    (i :: asked, a)

theorem inquire_bind (p : Program Inquiry.Answer α) (f : α → Program Inquiry.Answer β) :
    inquire ctx (p.bind f) =
      ((inquire ctx p).1 ++ (inquire ctx (f (inquire ctx p).2)).1,
        (inquire ctx (f (inquire ctx p).2)).2) := by
  induction p with
  | done a => rfl
  | call i next ih => simp only [Program.call_bind, inquire, ih, List.cons_append]

def settle (bs : List (Blueprint F)) (name target : String) : Except Fault (String × String) :=
  match concrete? bs target with
  | none => .error (.abstractResolution name s!"resolved to unknown component '{target}'")
  | some b =>
    if b.implements.contains name then .ok (name, target)
    else .error (.abstractResolution name s!"'{target}' does not implement it")

/-- Resolves the abstract names of a list, up to the first one that fails. -/
def resolving (bs : List (Blueprint F)) :
    List (Blueprint F) → Program Inquiry.Answer (Except Fault (List (String × String)))
  | [] => return .ok []
  | b :: cs =>
    match b.kind with
    | .concrete _ _ => resolving bs cs
    | .abstract resolver => do
      let target ← .ask (.resolver b.name resolver)
      match settle bs b.name target with
      | .error fault => return .error fault
      | .ok pair => return (← resolving bs cs).map (pair :: ·)

def Condition.deciding (name : String) : Condition → Program Inquiry.Answer Bool
  | .always => return true
  | .fixed value => return value
  | .asked question => .ask (Inquiry.condition name question)

def deciding : List (Node F) → Program Inquiry.Answer (List (String × Bool))
  | [] => return []
  | n :: ns => do
    let value ← n.condition.deciding n.name
    return (n.name, value) :: (← deciding ns)

def Node.decided (decisions : List (String × Bool)) (n : Node F) : Node F :=
  { n with condition := .fixed ((decisions.lookup n.name).getD true) }

/-- Makes a plan when it is known what abstract names stand for. Conditions are decided before
anything is left out, and then not again. -/
def fitting (bs : List (Blueprint F)) (ctx : Context) (aliases : List (String × String)) :
    Program Inquiry.Answer (Except Fault (Plan F)) :=
  match ordered bs aliases with
  | .error fault => return .error fault
  | .ok (ns, order) => do
    let decisions ← deciding ns
    return .ok (planOf ctx aliases (order.map (Node.decided decisions)))

/-- Makes a plan. -/
def planning (r : Registry F) (ctx : Context) :
    Program Inquiry.Answer (Except Fault (Plan F)) := do
  match ← resolving (r.blueprints ctx) (r.blueprints ctx) with
  | .error fault => return .error fault
  | .ok aliases => fitting (r.blueprints ctx) ctx aliases

/-- The resolver of an abstract name. -/
def Blueprint.resolver? (b : Blueprint F) : Option Inquiry :=
  match b.kind with
  | .abstract resolver => some (.resolver b.name resolver)
  | .concrete _ _ => none

/-- The condition of a concrete component that has to be asked. -/
def Blueprint.condition? (b : Blueprint F) : Option Inquiry :=
  match b.kind, b.condition with
  | .concrete _ _, .asked question => some (.condition b.name question)
  | _, _ => none

/-- The condition of a node that has to be asked. -/
def Node.condition? (n : Node F) : Option Inquiry :=
  match n.condition with
  | .asked question => some (.condition n.name question)
  | _ => none

/-- An abstract name whose resolver does not answer with a component that implements it. -/
def Blueprint.FailsToResolve (b : Blueprint F) (bs : List (Blueprint F)) (ctx : Context) : Prop :=
  ∃ resolver, b.kind = .abstract resolver ∧ ¬ Resolves bs ctx b.name resolver

theorem inquire_resolving (bs cs : List (Blueprint F)) (ctx : Context) :
    (inquire ctx (resolving bs cs)).1.map Inquiry.note = (resolveAll bs ctx cs).1 ∧
      (inquire ctx (resolving bs cs)).2 = (resolveAll bs ctx cs).2 := by
  induction cs with
  | nil => exact ⟨rfl, rfl⟩
  | cons b cs ih =>
    cases hkind : b.kind with
    | concrete factory isManager => simpa only [resolving, resolveAll, hkind] using ih
    | abstract resolver =>
      have hsettle : settle bs b.name (resolver.answer ctx) = resolve bs ctx b.name resolver := rfl
      simp only [resolving, resolveAll, hkind, Program.ask, Program.bind_eq_bind, Program.call_bind,
        Program.done_bind, inquire, Inquiry.answer, hsettle]
      cases resolve bs ctx b.name resolver with
      | error fault => exact ⟨rfl, rfl⟩
      | ok pair =>
        simp only [inquire_bind, Program.pure_eq_done, inquire, List.append_nil, List.map_cons,
          Inquiry.note]
        exact ⟨congrArg _ ih.1, congrArg _ ih.2⟩

theorem resolve_eq_error_iff {name : String} {resolver : Question String}
    (hbs : (bs.map (·.name)).Nodup) :
    (∃ fault, resolve bs ctx name resolver = .error fault) ↔ ¬ Resolves bs ctx name resolver := by
  rcases hresolve : resolve bs ctx name resolver with fault | pair
  · refine ⟨fun _ h => ?_, fun _ => ⟨fault, rfl⟩⟩
    rw [(resolve_eq_ok_iff hbs).2 ⟨h, rfl⟩] at hresolve
    cases hresolve
  · have h := ((resolve_eq_ok_iff hbs).1 hresolve).1
    simp [h]

theorem calls_of_fails (cs : List (Blueprint F)) {b : Blueprint F} (hbs : (bs.map (·.name)).Nodup)
    (h : b.FailsToResolve bs ctx) :
    (inquire ctx (resolving bs (b :: cs))).1 = b.resolver?.toList ∧
      ∃ message, (resolveAll bs ctx (b :: cs)).2 =
        .error (.abstractResolution b.name message) := by
  obtain ⟨resolver, hkind, hfails⟩ := h
  obtain ⟨fault, hfault⟩ := (resolve_eq_error_iff hbs).2 hfails
  have hsettle : settle bs b.name (resolver.answer ctx) = .error fault := hfault
  simp only [resolving, resolveAll, Blueprint.resolver?, hkind, hfault, Program.ask,
    Program.bind_eq_bind, Program.call_bind, Program.done_bind, inquire, Inquiry.answer, hsettle]
  obtain ⟨message, rfl⟩ := resolve_eq_error hfault
  exact ⟨rfl, message, rfl⟩

theorem calls_of_not_fails (cs : List (Blueprint F)) {b : Blueprint F}
    (hbs : (bs.map (·.name)).Nodup)
    (h : ¬ b.FailsToResolve bs ctx) :
    (inquire ctx (resolving bs (b :: cs))).1 =
        b.resolver?.toList ++ (inquire ctx (resolving bs cs)).1 ∧
      ∀ fault, (resolveAll bs ctx cs).2 = .error fault →
        (resolveAll bs ctx (b :: cs)).2 = .error fault := by
  cases hkind : b.kind with
  | concrete factory isManager =>
    simp only [resolving, resolveAll, Blueprint.resolver?, hkind]
    exact ⟨rfl, fun _ => id⟩
  | abstract resolver =>
    have hresolves : Resolves bs ctx b.name resolver := by
      by_contra hfails
      exact h ⟨resolver, hkind, hfails⟩
    have hpair := (resolve_eq_ok_iff hbs).2 ⟨hresolves, rfl⟩
    have hsettle : settle bs b.name (resolver.answer ctx) = .ok (b.name, resolver.answer ctx) :=
      hpair
    simp only [resolving, resolveAll, Blueprint.resolver?, hkind, hpair, Program.ask,
      Program.bind_eq_bind, Program.call_bind, Program.done_bind, inquire, Inquiry.answer, hsettle,
      inquire_bind, Program.pure_eq_done, List.append_nil]
    exact ⟨rfl, fun fault hfault => by rw [hfault]; rfl⟩

theorem filterMap_cons_eq_append {f : α → Option β} (a : α) (as : List α) :
    (a :: as).filterMap f = (f a).toList ++ as.filterMap f := by
  rw [List.filterMap_cons]
  cases f a <;> rfl

/-- Either resolvers are called up to the first one that fails, or none fails and all of them are
called. -/
theorem calls_resolving (hbs : (bs.map (·.name)).Nodup) (cs : List (Blueprint F)) :
    (∃ before a after, cs = before ++ a :: after ∧ (∀ b ∈ before, ¬ b.FailsToResolve bs ctx) ∧
      a.FailsToResolve bs ctx ∧
      (inquire ctx (resolving bs cs)).1 = (before ++ [a]).filterMap Blueprint.resolver? ∧
      ∃ message, (resolveAll bs ctx cs).2 = .error (.abstractResolution a.name message)) ∨
    ((∀ b ∈ cs, ¬ b.FailsToResolve bs ctx) ∧
      (inquire ctx (resolving bs cs)).1 = cs.filterMap Blueprint.resolver?) := by
  induction cs with
  | nil => exact .inr ⟨by simp, rfl⟩
  | cons b cs ih =>
    by_cases hb : b.FailsToResolve bs ctx
    · obtain ⟨hasked, hfault⟩ := calls_of_fails cs hbs hb
      refine .inl ⟨[], b, cs, rfl, by simp, hb, ?_, hfault⟩
      rw [hasked, List.nil_append, filterMap_cons_eq_append, List.filterMap_nil, List.append_nil]
    · obtain ⟨hasked, hfault⟩ := calls_of_not_fails cs hbs hb
      rw [hasked, filterMap_cons_eq_append]
      rcases ih with ⟨before, a, after, rfl, hbefore, ha, hrest, message, herror⟩ | ⟨hall, hrest⟩
      · refine .inl ⟨b :: before, a, after, rfl, List.forall_mem_cons.2 ⟨hb, hbefore⟩, ha, ?_,
          message, hfault _ herror⟩
        rw [hrest, List.cons_append, filterMap_cons_eq_append]
      · exact .inr ⟨List.forall_mem_cons.2 ⟨hb, hall⟩, by rw [hrest]⟩

/-- Deciding conditions takes the calls of those that are questions, once each and in order. -/
theorem inquire_deciding (ns : List (Node F)) :
    inquire ctx (deciding ns) =
      (ns.filterMap Node.condition?, ns.map fun n => (n.name, n.condition.holds ctx)) := by
  induction ns with
  | nil => rfl
  | cons n ns ih =>
    cases hcondition : n.condition <;>
      simp [deciding, Condition.deciding, Condition.holds, Node.condition?, hcondition,
        inquire_bind, inquire, ih, Program.ask, Inquiry.answer]

theorem lookup_decisions {ns : List (Node F)} {n : Node F} (hns : (ns.map (·.name)).Nodup)
    (hn : n ∈ ns) :
    (ns.map fun m => (m.name, m.condition.holds ctx)).lookup n.name =
      some (n.condition.holds ctx) := by
  induction ns with
  | nil => cases hn
  | cons m ns ih =>
    rw [List.map_cons, List.nodup_cons] at hns
    rw [List.map_cons, List.lookup_cons]
    rcases List.mem_cons.1 hn with rfl | hn
    · rw [beq_self_eq_true]
    · have hne : (n.name == m.name) = false :=
        beq_eq_false_iff_ne.2 fun heq => hns.1 (heq ▸ List.mem_map_of_mem hn)
      rw [hne]
      exact ih hns.2 hn

/-- Whether a condition is decided beforehand or when it counts makes no difference to a plan. -/
theorem planOf_decided {decisions : List (String × Bool)} {aliases : List (String × String)}
    {order : List (Node F)}
    (h : ∀ n ∈ order, decisions.lookup n.name = some (n.condition.holds ctx)) :
    planOf ctx aliases (order.map (Node.decided decisions)) = planOf ctx aliases order := by
  have hholds : ∀ n ∈ order,
      (n.decided decisions).condition.holds ctx = n.condition.holds ctx := by
    intro n hn
    simp [Node.decided, Condition.holds, h n hn]
  have hskipped : prune ctx (order.map (Node.decided decisions)) = prune ctx order := by
    clear h
    induction order using List.reverseRecOn with
    | nil => rfl
    | append_singleton before n ih =>
      rw [List.map_append, List.map_singleton, prune_concat, prune_concat,
        ih fun m hm => hholds m (List.mem_append_left _ hm), skippedOf?, skippedOf?, skipReason?,
        skipReason?, hholds n (by simp)]
      rfl
  simp only [planOf, hskipped, List.filter_map, List.map_map]
  rfl

theorem Represents.condition?_eq {aliases : List (String × String)} {b : Blueprint F} {n : Node F}
    (h : Represents bs aliases b n) : n.condition? = b.condition? := by
  simp only [Node.condition?, Blueprint.condition?, h.kind, h.condition, h.name]
  cases b.condition <;> rfl

theorem conditions_nodes {aliases : List (String × String)} {ns : List (Node F)}
    (hns : nodes bs aliases = .ok ns) :
    ns.filterMap Node.condition? = bs.filterMap Blueprint.condition? := by
  have habstract : ∀ b : Blueprint F, b.condition?.isSome = true → (!b.isAbstract) = true := by
    intro b h
    cases hkind : b.kind <;> simp_all [Blueprint.condition?, Blueprint.isAbstract]
  have hmap := map_eq_map_of_forall₂ Blueprint.condition? Node.condition?
    (represents_of_nodes hns) fun _ _ => Represents.condition?_eq
  calc ns.filterMap Node.condition?
      = (ns.map Node.condition?).filterMap id := by rw [List.filterMap_map]; rfl
    _ = (bs.filter fun b => !b.isAbstract).filterMap Blueprint.condition? := by
        rw [hmap, List.filterMap_map]; rfl
    _ = bs.filterMap Blueprint.condition? := by
        rw [List.filterMap_filter]
        refine List.filterMap_congr fun b _ => ?_
        specialize habstract b
        cases h : b.condition? <;> simp_all

theorem notes_conditions (ns : List (Node F)) :
    (ns.filterMap Node.condition?).map Inquiry.note = ns.flatMap fun n => n.condition.notes := by
  induction ns with
  | nil => rfl
  | cons n ns ih =>
    rw [filterMap_cons_eq_append, List.map_append, List.flatMap_cons, ih, Node.condition?]
    cases n.condition <;> rfl

theorem inquire_fitting_error {aliases : List (String × String)} {fault : Fault}
    (h : ordered bs aliases = .error fault) :
    inquire ctx (fitting bs ctx aliases) = ([], .error fault) := by
  rw [fitting, h]
  rfl

/-- Where the order is all right, every condition is asked, whatever is left out afterwards. -/
theorem inquire_fitting_ok (ctx : Context) {aliases : List (String × String)}
    {ns order : List (Node F)}
    (hbs : (bs.map (·.name)).Nodup) (h : ordered bs aliases = .ok (ns, order)) :
    inquire ctx (fitting bs ctx aliases) =
      (bs.filterMap Blueprint.condition?, .ok (planOf ctx aliases order)) ∧
      (bs.filterMap Blueprint.condition?).map Inquiry.note =
        ns.flatMap fun n => n.condition.notes := by
  obtain ⟨hns, hsorted⟩ : nodes bs aliases = .ok ns ∧
      Order.sorted (·.name) Node.prerequisites ns = .ok order := by
    obtain ⟨ms, hms, h⟩ := bind_eq_ok.1 h
    cases hsorted : Order.sorted (·.name) Node.prerequisites ms with
    | error cycle => rw [hsorted] at h; cases h
    | ok found =>
      rw [hsorted] at h
      obtain ⟨rfl, rfl⟩ := Prod.mk.inj (Except.ok.inj h)
      exact ⟨hms, hsorted⟩
  have hdecided : ∀ n ∈ order, (ns.map fun m => (m.name, m.condition.holds ctx)).lookup n.name =
      some (n.condition.holds ctx) := fun n hn =>
    lookup_decisions (nodup_names_nodes hns hbs) ((Order.sorted_perm hsorted).1.mem_iff.1 hn)
  rw [← conditions_nodes hns, notes_conditions, fitting, h]
  simp only [Program.bind_eq_bind, Program.pure_eq_done, inquire_bind, inquire_deciding, inquire,
    List.append_nil, planOf_decided hdecided, and_self]

/-- Planning returns the plan, and its calls are noted with the plan. They are those of resolvers,
and those of all conditions if a plan is made. -/
theorem inquire_planning (hr : r.names.Nodup) (ctx : Context) :
    (inquire ctx (planning r ctx)).2 = (r.plan ctx).2 ∧
    (inquire ctx (planning r ctx)).1.map Inquiry.note = (r.plan ctx).1 ∧
    (∀ fault, (r.plan ctx).2 = .error fault → (inquire ctx (planning r ctx)).1 =
      (inquire ctx (resolving (r.blueprints ctx) (r.blueprints ctx))).1) ∧
    (∀ p, (r.plan ctx).2 = .ok p → (inquire ctx (planning r ctx)).1 =
      (inquire ctx (resolving (r.blueprints ctx) (r.blueprints ctx))).1 ++
        (r.blueprints ctx).filterMap Blueprint.condition?) := by
  have hbs : ((r.blueprints ctx).map (·.name)).Nodup := by rwa [names_blueprints]
  obtain ⟨hnotes, hresult⟩ := inquire_resolving (r.blueprints ctx) (r.blueprints ctx) ctx
  rw [planning, Program.bind_eq_bind, inquire_bind, hresult, plan]
  rcases hall : resolveAll (r.blueprints ctx) ctx (r.blueprints ctx) with ⟨notes, fault | aliases⟩
  · rw [hall] at hnotes
    simp [inquire, hnotes]
  rw [hall] at hnotes
  dsimp only at hnotes ⊢
  cases hordered : ordered (r.blueprints ctx) aliases with
  | error fault =>
    rw [inquire_fitting_error hordered]
    simp [hnotes]
  | ok found =>
    obtain ⟨hasked, hconditions⟩ := inquire_fitting_ok ctx hbs hordered
    rw [hasked]
    simp [hnotes, hconditions]

theorem name_of_resolver? {b : Blueprint F} {i : Inquiry} (h : b.resolver? = some i) :
    i.name = b.name ∧ b.isAbstract = true := by
  cases hkind : b.kind with
  | abstract resolver =>
    rw [Blueprint.resolver?, hkind] at h
    obtain rfl := Option.some.inj h
    exact ⟨rfl, by rw [Blueprint.isAbstract, hkind]⟩
  | concrete factory isManager => simp [Blueprint.resolver?, hkind] at h

theorem name_of_condition? {b : Blueprint F} {i : Inquiry} (h : b.condition? = some i) :
    i.name = b.name ∧ b.isAbstract = false := by
  unfold Blueprint.condition? at h
  split at h
  · rename_i hkind _
    obtain rfl := Option.some.inj h
    exact ⟨rfl, by rw [Blueprint.isAbstract, hkind]⟩
  · cases h

theorem names_filterMap_sublist {f : Blueprint F → Option Inquiry}
    (hf : ∀ b i, f b = some i → i.name = b.name) (bs : List (Blueprint F)) :
    ((bs.filterMap f).map Inquiry.name).Sublist (bs.map (·.name)) := by
  induction bs with
  | nil => exact .slnil
  | cons b bs ih =>
    rw [filterMap_cons_eq_append]
    cases hb : f b with
    | none => exact ih.cons _
    | some i =>
      rw [List.map_cons, ← hf b i hb]
      exact ih.cons_cons _

/-- A component is abstract or concrete, so no component has both a resolver and a condition. -/
theorem nodup_names_calls (hbs : (bs.map (·.name)).Nodup) :
    ((bs.filterMap Blueprint.resolver? ++ bs.filterMap Blueprint.condition?).map
      Inquiry.name).Nodup := by
  rw [List.map_append, List.nodup_append]
  refine ⟨hbs.sublist (names_filterMap_sublist (fun _ _ h => (name_of_resolver? h).1) bs),
    hbs.sublist (names_filterMap_sublist (fun _ _ h => (name_of_condition? h).1) bs), ?_⟩
  intro name hresolver name' hcondition heq
  obtain ⟨i, hi, hname⟩ := List.mem_map.1 hresolver
  obtain ⟨j, hj, hname'⟩ := List.mem_map.1 hcondition
  obtain ⟨b, hb, hi⟩ := List.mem_filterMap.1 hi
  obtain ⟨c, hc, hj⟩ := List.mem_filterMap.1 hj
  obtain ⟨hib, habstract⟩ := name_of_resolver? hi
  obtain ⟨hjc, hconcrete⟩ := name_of_condition? hj
  have hsame : b.name = c.name := by rw [← hib, ← hjc, hname, hname', heq]
  obtain rfl := List.inj_on_of_nodup_map hbs hb hc hsame
  rw [habstract] at hconcrete
  cases hconcrete

/-- A plan takes the calls of the resolvers of abstract names in the order of registration, up to
the first one that fails. If none fails, each is called once. Only if a plan is made, the conditions
of concrete components that are questions are asked in the order of registration, each once, and
also those of components that are left out because of a dependency. -/
theorem plan_asks_once (hregistry : Registry.empty.registerAll ds = .ok r) (ctx : Context) :
    ∃ asked, inquire ctx (planning r ctx) = (asked, (r.plan ctx).2) ∧
      asked.map Inquiry.note = (r.plan ctx).1 ∧ (asked.map Inquiry.name).Nodup ∧
      ((∃ before a after, r.blueprints ctx = before ++ a :: after ∧
          (∀ b ∈ before, ¬ b.FailsToResolve (r.blueprints ctx) ctx) ∧
          a.FailsToResolve (r.blueprints ctx) ctx ∧
          (∃ message, (r.plan ctx).2 = .error (.abstractResolution a.name message)) ∧
          asked = (before ++ [a]).filterMap Blueprint.resolver?) ∨
        ((∀ b ∈ r.blueprints ctx, ¬ b.FailsToResolve (r.blueprints ctx) ctx) ∧
          ¬ Acceptable (r.blueprints ctx) ctx ∧ (∃ fault, (r.plan ctx).2 = .error fault) ∧
          asked = (r.blueprints ctx).filterMap Blueprint.resolver?) ∨
        (Acceptable (r.blueprints ctx) ctx ∧ (∃ p, (r.plan ctx).2 = .ok p) ∧
          asked = (r.blueprints ctx).filterMap Blueprint.resolver? ++
            (r.blueprints ctx).filterMap Blueprint.condition?)) := by
  have hr : r.names.Nodup := nodup_names_registerAll hregistry List.nodup_nil
  have hbs : ((r.blueprints ctx).map (·.name)).Nodup := by rwa [names_blueprints]
  have hcalls := nodup_names_calls hbs
  obtain ⟨hresult, hnotes, herror, hok⟩ := inquire_planning hr ctx
  refine ⟨(inquire ctx (planning r ctx)).1, Prod.ext rfl hresult, hnotes, ?_⟩
  rcases calls_resolving hbs (r.blueprints ctx) with
    ⟨before, a, after, hsplit, hbefore, ha, hasked, message, hfault⟩ | ⟨hall, hasked⟩
  · have hplan : (r.plan ctx).2 = .error (.abstractResolution a.name message) := by
      rw [plan_snd, hfault]
      rfl
    have hfirst : (before ++ [a]).Sublist (r.blueprints ctx) := by
      have hall : r.blueprints ctx = (before ++ [a]) ++ after := by simp [hsplit]
      rw [hall]
      exact List.sublist_append_left _ _
    rw [herror _ hplan, hasked]
    refine ⟨hcalls.sublist (List.Sublist.map _ ?_),
      .inl ⟨before, a, after, hsplit, hbefore, ha, ⟨message, hplan⟩, rfl⟩⟩
    exact (hfirst.filterMap _).trans (List.sublist_append_left _ _)
  · rcases hplan : (r.plan ctx).2 with fault | p
    · rw [herror _ hplan, hasked]
      refine ⟨hcalls.sublist ((List.sublist_append_left _ _).map _),
        .inr (.inl ⟨hall, fun hacceptable => ?_, ⟨fault, rfl⟩, rfl⟩)⟩
      obtain ⟨p, hp⟩ := (exists_plan_iff hr).2 hacceptable
      rw [hplan] at hp
      cases hp
    · rw [hok _ hplan, hasked]
      exact ⟨hcalls, .inr (.inr ⟨(exists_plan_iff hr).1 ⟨p, hplan⟩, ⟨p, rfl⟩, rfl⟩)⟩

/-- A report that needs a search, which is only there if somebody wants it, and a storage. -/
def wanted : List (Descriptor Unit) :=
  [{ toBlueprint :=
      ((Blueprint.concrete "report" ()).dependsOn "search").buildOnlyWhen
        ⟨"report?", fun _ => true⟩ },
    { toBlueprint := Blueprint.abstract "storage" ⟨"storage?", fun _ => "disk"⟩ },
    { toBlueprint := (Blueprint.concrete "search" ()).buildOnlyWhen
        ⟨"search?", fun ctx => ctx.flag "search"⟩ },
    { toBlueprint := (Blueprint.concrete "disk" ()).implementing "storage" }]

theorem plan_asks_once_wanted : Registry.empty.registerAll wanted = .ok ⟨wanted⟩ ∧
    ∃ asked p, inquire default (planning ⟨wanted⟩ default) = (asked, .ok p) ∧
      p.order = ["disk"] ∧ p.skipped.map (·.name) = ["search", "report"] ∧
      asked.map Inquiry.name = ["storage", "report", "search"] ∧
      (asked.map Inquiry.name).Nodup := by
  have hregistry : Registry.empty.registerAll wanted = .ok ⟨wanted⟩ := rfl
  obtain ⟨asked, hasked, -, hnodup, -⟩ := plan_asks_once hregistry default
  have hplan : ∃ p, (plan ⟨wanted⟩ default).2 = .ok p ∧ p.order = ["disk"] ∧
      p.skipped.map (·.name) = ["search", "report"] := ⟨_, rfl, by decide +kernel⟩
  obtain ⟨p, hp, horder, hskipped⟩ := hplan
  have hnames : (inquire default (planning ⟨wanted⟩ default)).1.map Inquiry.name =
      ["storage", "report", "search"] := by decide +kernel
  rw [hasked] at hnames
  exact ⟨hregistry, asked, p, by rw [hasked, hp], horder, hskipped, hnames, hnodup⟩

end Steward.Registry
