import Steward.Proofs.Sequence
import Steward.Registry.Plan
/-!
What names mean. An abstract name means what its resolver answers, and every other name means
itself. Planning collects what abstract names stand for and replaces names by that, so a replaced
name is what the name means.
-/
namespace Steward.Registry

variable {F : Type} {bs cs : List (Blueprint F)} {ctx : Context} {name : String}
  {resolver : Question String}

/-- All names that a blueprint refers to. -/
def Blueprint.references (b : Blueprint F) : List String :=
  b.dependencies ++ b.links.map (·.target)

/-- An abstract blueprint stands for what its resolver answers, a concrete one for itself. -/
def Blueprint.standsFor (b : Blueprint F) (ctx : Context) : String :=
  match b.kind with
  | .abstract resolver => resolver.answer ctx
  | .concrete _ _ => b.name

/-- What a name means, which means itself if there is no blueprint of it. -/
def meaning (bs : List (Blueprint F)) (ctx : Context) (name : String) : String :=
  ((bs.find? (·.name == name)).map (·.standsFor ctx)).getD name

/-- A name is that of a concrete component. -/
def IsConcrete (bs : List (Blueprint F)) (name : String) : Prop :=
  ∃ b ∈ bs, b.name = name ∧ b.isAbstract = false

/-- One concrete component means another by one of certain names of its own. -/
def PointsTo (bs : List (Blueprint F)) (ctx : Context) (names : Blueprint F → List String)
    (a c : String) : Prop :=
  ∃ b ∈ bs, b.isAbstract = false ∧ b.name = a ∧ c ∈ (names b).map (meaning bs ctx)

abbrev DependsOn (bs : List (Blueprint F)) (ctx : Context) : String → String → Prop :=
  PointsTo bs ctx Blueprint.dependencies

abbrev Refers (bs : List (Blueprint F)) (ctx : Context) : String → String → Prop :=
  PointsTo bs ctx Blueprint.references

/-- An abstract name with this resolver stands for a concrete component that implements it. -/
def Resolves (bs : List (Blueprint F)) (ctx : Context) (name : String)
    (resolver : Question String) : Prop :=
  ∃ b ∈ bs, b.isAbstract = false ∧ b.name = resolver.answer ctx ∧ name ∈ b.implements

theorem exists_abstract_of_meaning_ne (h : meaning bs ctx name ≠ name) :
    ∃ a ∈ bs, a.name = name ∧ ∃ resolver, a.kind = .abstract resolver ∧
      resolver.answer ctx = meaning bs ctx name := by
  rcases hfound : bs.find? (·.name == name) with _ | a
  · exact absurd (by rw [meaning, hfound]; rfl) h
  · have hname : a.name = name := by simpa using List.find?_some hfound
    have hmeaning : meaning bs ctx name = a.standsFor ctx := by rw [meaning, hfound]; rfl
    rw [hmeaning] at h ⊢
    refine ⟨a, List.mem_of_find?_eq_some hfound, hname, ?_⟩
    cases hkind : a.kind with
    | abstract resolver => exact ⟨resolver, rfl, by rw [Blueprint.standsFor, hkind]⟩
    | concrete factory isManager => exact absurd (by rw [Blueprint.standsFor, hkind, hname]) h

theorem concrete?_isSome_iff : (concrete? bs name).isSome = true ↔ IsConcrete bs name := by
  simp [concrete?, IsConcrete]

theorem concrete?_of_mem {b : Blueprint F} (hbs : (bs.map (·.name)).Nodup) (hb : b ∈ bs)
    (hconcrete : b.isAbstract = false) : concrete? bs b.name = some b := by
  have hsome := concrete?_isSome_iff.2 ⟨b, hb, rfl, hconcrete⟩
  obtain ⟨c, hc⟩ := Option.isSome_iff_exists.1 hsome
  have hname : c.name = b.name := by
    have h := List.find?_some hc
    simp only [Bool.and_eq_true, beq_iff_eq] at h
    exact h.1
  rw [hc, List.inj_on_of_nodup_map hbs (List.mem_of_find?_eq_some hc) hb hname]

def aliasOf? (ctx : Context) (b : Blueprint F) : Option (String × String) :=
  match b.kind with
  | .abstract resolver => some (b.name, resolver.answer ctx)
  | .concrete _ _ => none

theorem lookup_aliases_of_not_mem (h : name ∉ bs.map (·.name)) :
    (bs.filterMap (aliasOf? ctx)).lookup name = none := by
  rw [List.lookup_eq_none_iff]
  intro pair hpair
  obtain ⟨b, hb, hpair⟩ := List.mem_filterMap.1 hpair
  unfold aliasOf? at hpair
  split at hpair
  · cases hpair
    have hne : name ≠ b.name := fun heq => h (heq ▸ List.mem_map_of_mem hb)
    simpa using hne
  · cases hpair

theorem dealias_aliases (hbs : (bs.map (·.name)).Nodup) (name : String) :
    dealias (bs.filterMap (aliasOf? ctx)) name = meaning bs ctx name := by
  induction bs with
  | nil => rfl
  | cons b bs ih =>
    rw [List.map_cons, List.nodup_cons] at hbs
    by_cases hname : b.name = name
    · subst hname
      have hmeaning : meaning (b :: bs) ctx b.name = b.standsFor ctx := by simp [meaning]
      rw [hmeaning, Blueprint.standsFor]
      cases hkind : b.kind with
      | concrete factory isManager =>
        rw [List.filterMap_cons_none (by rw [aliasOf?, hkind]), dealias,
          lookup_aliases_of_not_mem hbs.1]
        rfl
      | abstract resolver =>
        rw [List.filterMap_cons_some (by rw [aliasOf?, hkind]), dealias, List.lookup_cons_self]
        rfl
    · have hskip : meaning (b :: bs) ctx name = meaning bs ctx name := by simp [meaning, hname]
      rw [hskip, ← ih hbs.2]
      cases hkind : b.kind with
      | concrete factory isManager =>
        rw [List.filterMap_cons_none (by rw [aliasOf?, hkind])]
      | abstract resolver =>
        have hne : (name == b.name) = false := by simpa using Ne.symm hname
        rw [List.filterMap_cons_some (by rw [aliasOf?, hkind]), dealias, dealias, List.lookup_cons,
          hne]

theorem resolve_eq_ok_iff {pair : String × String} (hbs : (bs.map (·.name)).Nodup) :
    resolve bs ctx name resolver = .ok pair ↔
      Resolves bs ctx name resolver ∧ pair = (name, resolver.answer ctx) := by
  simp only [resolve]
  constructor
  · intro h
    split at h
    · cases h
    · rename_i b hb
      split at h
      · rename_i himplements
        cases h
        have hname := List.find?_some hb
        simp only [Bool.and_eq_true, beq_iff_eq, Bool.not_eq_true'] at hname
        exact ⟨⟨b, List.mem_of_find?_eq_some hb, hname.2, hname.1, by simpa using himplements⟩, rfl⟩
      · cases h
  · rintro ⟨⟨b, hb, hconcrete, hname, himplements⟩, rfl⟩
    rw [← hname, concrete?_of_mem hbs hb hconcrete]
    exact if_pos (by simpa using himplements)

theorem resolve_eq_error {fault : Fault} (h : resolve bs ctx name resolver = .error fault) :
    ∃ message, fault = .abstractResolution name message := by
  simp only [resolve] at h
  split at h
  · exact ⟨_, (Except.error.inj h).symm⟩
  · split at h
    · cases h
    · exact ⟨_, (Except.error.inj h).symm⟩

theorem resolveAll_eq_ok_iff {aliases : List (String × String)}
    (hbs : (bs.map (·.name)).Nodup) :
    (resolveAll bs ctx cs).2 = .ok aliases ↔
      (∀ a ∈ cs, ∀ resolver, a.kind = .abstract resolver → Resolves bs ctx a.name resolver) ∧
        aliases = cs.filterMap (aliasOf? ctx) := by
  induction cs generalizing aliases with
  | nil => simp [resolveAll, eq_comm]
  | cons c cs ih =>
    rw [List.forall_mem_cons]
    cases hkind : c.kind with
    | concrete factory isManager =>
      rw [List.filterMap_cons_none (by rw [aliasOf?, hkind])]
      simp [resolveAll, hkind, ih]
    | abstract resolver =>
      rw [List.filterMap_cons_some (by rw [aliasOf?, hkind])]
      simp only [resolveAll, hkind]
      rcases hresolve : resolve bs ctx c.name resolver with fault | pair
      · have hnot : ¬ Resolves bs ctx c.name resolver := by
          intro h
          have hok := (resolve_eq_ok_iff hbs).2 ⟨h, rfl⟩
          rw [hresolve] at hok
          cases hok
        simp [hnot]
      · obtain ⟨hresolves, rfl⟩ := (resolve_eq_ok_iff hbs).1 hresolve
        rcases hrest : (resolveAll bs ctx cs).2 with fault | rest
        · have hnone := fun h => ih.2 ⟨h, Eq.refl (cs.filterMap (aliasOf? ctx))⟩
          simp only [hrest, reduceCtorEq, imp_false] at hnone
          simp [Except.map, hnone]
        · obtain ⟨hall, rfl⟩ := ih.1 hrest
          constructor
          · intro h
            obtain rfl := Except.ok.inj h
            refine ⟨⟨?_, hall⟩, rfl⟩
            rintro _ ⟨⟩
            exact hresolves
          · rintro ⟨-, rfl⟩
            rfl

theorem resolveAll_eq_error {fault : Fault} (h : (resolveAll bs ctx cs).2 = .error fault) :
    ∃ name message, fault = .abstractResolution name message := by
  induction cs with
  | nil => cases h
  | cons c cs ih =>
    cases hkind : c.kind with
    | concrete factory isManager =>
      simp only [resolveAll, hkind] at h
      exact ih h
    | abstract resolver =>
      simp only [resolveAll, hkind] at h
      rcases hresolve : resolve bs ctx c.name resolver with fault' | pair
      · rw [hresolve] at h
        cases h
        exact ⟨c.name, resolve_eq_error hresolve⟩
      · rw [hresolve] at h
        rcases hrest : (resolveAll bs ctx cs).2 with fault' | rest
        · simp only [hrest, Except.map, Except.error.injEq] at h
          exact ih (h ▸ hrest)
        · simp [hrest, Except.map] at h

end Steward.Registry
