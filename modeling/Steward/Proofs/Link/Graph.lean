import Steward.Proofs.Sequence
import Steward.Link.Pass
/-!
The graph that a pass walks over: which components a pass goes on to from a component, which ones
are connected, and where the links close a way round.
-/
namespace Steward.Link.Topology

variable {ρ : Type} (t : Topology ρ) (op : Operation)

/-- A component has a link onto another one that the operation follows. -/
def Ties (a b : String) : Prop := ∃ l ∈ t.links a, op.follows l = true ∧ l.target = b

def Trails (a b : String) : Prop := ∃ f ∈ t.followers a, op.follows f.2 = true ∧ f.1 = b

def Leads (a b : String) : Prop := t.Ties op a b ∨ t.Trails op a b

def Reaches : String → String → Prop := Relation.ReflTransGen (t.Leads op)

def ReachesPast (blocked : List String) : String → String → Prop :=
  Relation.ReflTransGen fun a b => t.Leads op a b ∧ a ∉ blocked ∧ b ∉ blocked

/-- Two components are connected by links that the operation follows, in either direction. -/
def Connected : String → String → Prop :=
  Relation.ReflTransGen fun a b => t.Ties op a b ∨ t.Ties op b a

/-- Two components are connected by a way that does not go through a third one. -/
def ConnectedBeside (x : String) : String → String → Prop :=
  Relation.ReflTransGen fun a b => (t.Ties op a b ∨ t.Ties op b a) ∧ a ≠ x ∧ b ≠ x

/-- A way round that leaves a component by one of its links and comes back by a link onto it. The
links between may point either way, so a way round need not be a cycle of links. -/
def Detour (x : String) : Prop :=
  ∃ b a, t.Ties op x b ∧ t.Ties op a x ∧ t.ConnectedBeside op x b a

def Acyclic : Prop := ∀ a, ¬ Relation.TransGen (t.Ties op) a a

/-- No component to which the links of a component lead, itself among them, has a way over links
back to itself. -/
def Grounded (a : String) : Prop :=
  ∀ x, Relation.ReflTransGen (t.Ties op) a x → ¬ Relation.TransGen (t.Ties op) x x

structure Complete (t : Topology ρ) : Prop where
  links_mem : ∀ {a : String} {l : Link}, l ∈ t.links a → a ∈ t.names ∧ l.target ∈ t.names
  followers_mem : ∀ {a : String} {f : String × Link},
    f ∈ t.followers a → a ∈ t.names ∧ f.1 ∈ t.names

/-- The followers of a component are just those that have a link onto it. -/
def Mirrored (t : Topology ρ) : Prop :=
  ∀ (a : String) (f : String × Link), f ∈ t.followers a ↔ f.2 ∈ t.links f.1 ∧ f.2.target = a

def ofLinks (names : List String) (links : List (String × Link)) (find : String → Except Fault ρ) :
    Topology ρ where
  names := names
  links name := (links.filter fun l => l.1 == name).map (·.2)
  followers name := links.filter fun l => l.2.target == name
  find := find

theorem mirrored_ofLinks (names : List String) (links : List (String × Link))
    (find : String → Except Fault ρ) : (ofLinks names links find).Mirrored := by
  intro a f
  simp only [ofLinks, List.mem_filter, List.mem_map, beq_iff_eq, Prod.exists]
  constructor
  · rintro ⟨hf, rfl⟩
    exact ⟨⟨f.1, f.2, ⟨hf, rfl⟩, rfl⟩, rfl⟩
  · rintro ⟨⟨_, _, ⟨hf, rfl⟩, rfl⟩, rfl⟩
    exact ⟨hf, rfl⟩

theorem complete_ofLinks {names : List String} {links : List (String × Link)}
    {find : String → Except Fault ρ} (h : ∀ l ∈ links, l.1 ∈ names ∧ l.2.target ∈ names) :
    (ofLinks names links find).Complete where
  links_mem hl := by
    obtain ⟨f, hf, rfl⟩ := List.mem_map.1 hl
    obtain ⟨hmem, howner⟩ := List.mem_filter.1 hf
    exact ⟨beq_iff_eq.1 howner ▸ (h f hmem).1, (h f hmem).2⟩
  followers_mem hf := by
    obtain ⟨hmem, htarget⟩ := List.mem_filter.1 hf
    exact ⟨beq_iff_eq.1 htarget ▸ (h _ hmem).2, (h _ hmem).1⟩

variable {t op}

theorem ties_ofLinks {names : List String} {links : List (String × Link)}
    {find : String → Except Fault ρ} {a b : String} :
    (ofLinks names links find).Ties op a b ↔
      ∃ l ∈ links, l.1 = a ∧ l.2.target = b ∧ op.follows l.2 = true := by
  simp only [Ties, ofLinks, List.mem_map, List.mem_filter, beq_iff_eq]
  constructor
  · rintro ⟨_, ⟨l, ⟨hl, rfl⟩, rfl⟩, hfollows, rfl⟩
    exact ⟨l, hl, rfl, rfl, hfollows⟩
  · rintro ⟨l, hl, rfl, rfl, hfollows⟩
    exact ⟨l.2, ⟨l, ⟨hl, rfl⟩, rfl⟩, hfollows, rfl⟩

theorem acyclic_of_rank (rank : String → Nat) (h : ∀ a b, t.Ties op a b → rank b < rank a) :
    t.Acyclic op := not_transGen_of_rank rank h

/-- A component is grounded if its targets are: a way back to it would be one back to a target. -/
theorem Grounded.of_targets {a : String} (h : ∀ b, t.Ties op a b → t.Grounded op b) :
    t.Grounded op a := by
  intro x hax hxx
  rcases Relation.ReflTransGen.cases_head hax with rfl | ⟨b, hab, hbx⟩
  · obtain ⟨b, hab, hba⟩ := Relation.TransGen.head'_iff.1 hxx
    exact h b hab a hba hxx
  · exact h b hab x hbx hxx

theorem trails_iff {a b : String} (ht : t.Mirrored) : t.Trails op a b ↔ t.Ties op b a := by
  constructor
  · rintro ⟨f, hf, hfollows, rfl⟩
    obtain ⟨hlink, rfl⟩ := (ht a f).1 hf
    exact ⟨f.2, hlink, hfollows, rfl⟩
  · rintro ⟨l, hl, hfollows, rfl⟩
    exact ⟨(b, l), (ht _ _).2 ⟨hl, rfl⟩, hfollows, rfl⟩

theorem leads_iff {a b : String} (ht : t.Mirrored) :
    t.Leads op a b ↔ t.Ties op a b ∨ t.Ties op b a := by
  rw [Leads, trails_iff ht]

theorem reaches_iff {a b : String} (ht : t.Mirrored) :
    t.Reaches op a b ↔ t.Connected op a b := by
  have h : t.Leads op = fun a b => t.Ties op a b ∨ t.Ties op b a :=
    funext fun a => funext fun b => propext (leads_iff ht)
  rw [Reaches, Connected, h]

theorem ReachesPast.connectedBeside {blocked : List String} {a b x : String} (ht : t.Mirrored)
    (hx : x ∈ blocked) (h : t.ReachesPast op blocked a b) : t.ConnectedBeside op x a b := by
  induction h with
  | refl => exact .refl
  | tail _ hstep ih =>
    obtain ⟨hlead, ha, hb⟩ := hstep
    exact .tail ih ⟨(leads_iff ht).1 hlead, fun e => ha (e ▸ hx), fun e => hb (e ▸ hx)⟩

theorem Leads.mem_names {a b : String} (ht : t.Complete) (h : t.Leads op a b) : b ∈ t.names := by
  rcases h with ⟨l, hl, -, rfl⟩ | ⟨f, hf, -, rfl⟩
  · exact (ht.links_mem hl).2
  · exact (ht.followers_mem hf).2

theorem Connected.mem_names {a b : String} (ht : t.Complete) (h : t.Connected op a b)
    (ha : a ∈ t.names) : b ∈ t.names := by
  induction h with
  | refl => exact ha
  | tail _ hbc _ =>
    rcases hbc with ⟨l, hl, -, rfl⟩ | ⟨l, hl, -, -⟩
    · exact (ht.links_mem hl).2
    · exact (ht.links_mem hl).1

theorem ConnectedBeside.ne_of_ne {a b x : String} (h : t.ConnectedBeside op x a b) (hb : b ≠ x) :
    a ≠ x := by
  rcases Relation.ReflTransGen.cases_head h with rfl | ⟨c, hstep, -⟩
  · exact hb
  · exact hstep.2.1

end Steward.Link.Topology
