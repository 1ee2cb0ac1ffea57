import Steward.Proofs.Registry.Acceptance
/-!
The order of a plan is the earliest there is. Of all that is ready the thing that stands first is
placed next, so wherever another order goes a different way for the first time, it goes on with
something that stands later.
-/
namespace Steward.Registry

namespace Order

variable {α : Type} {name : α → String} {needs : α → List String} {things placed order : List α}
  {position : α → Nat}

/-- All of the things are there, each after what it needs. -/
structure IsOrdering (name : α → String) (needs : α → List String) (things order : List α) :
    Prop where
  perm : order.Perm things
  needsFirst : NeedsFirst name needs order

theorem isOrdering_sorted (h : sorted name needs things = .ok order) :
    IsOrdering name needs things order :=
  ⟨(sorted_perm h).1, (sorted_perm h).2⟩

/-- Where the two differ for the first time, the one has a thing that stands before that of the
other. -/
def Earlier (position : α → Nat) (order other : List α) : Prop :=
  List.Lex (· < ·) (order.map position) (other.map position)

theorem position_lt_of_ready? {names : List String} {t u : α}
    (hpositions : things.Pairwise (position · < position ·))
    (ht : ready? name needs things names = some t) (hu : u ∈ things) (hfresh : name u ∉ names)
    (hneeds : ∀ n ∈ needs u, n ∈ names) : t = u ∨ position t < position u := by
  obtain ⟨-, before, after, rfl, hbefore⟩ := List.find?_eq_some_iff_append.1 ht
  rcases List.mem_append.1 hu with hu | hu
  · have hpassed := hbefore u hu
    simp only [Bool.not_eq_true', Bool.and_eq_false_imp, List.all_eq_false,
      List.contains_iff_mem] at hpassed
    obtain ⟨n, hn, hmissing⟩ := hpassed (by simpa using hfresh)
    exact absurd (hneeds n hn) hmissing
  · rcases List.mem_cons.1 hu with rfl | hu
    · exact .inl rfl
    · rw [List.pairwise_append, List.pairwise_cons] at hpositions
      exact .inr (hpositions.2.1.1 u hu)

theorem prefix_arrange {left : Nat} (h : arrange name needs things left placed = .ok order) :
    placed <+: order := by
  induction left generalizing placed with
  | zero =>
    obtain rfl : placed = order := by simpa [arrange] using h
    exact List.prefix_rfl
  | succ left ih =>
    rw [arrange] at h
    split at h
    · exact (List.prefix_append placed _).trans (ih h)
    · cases h

theorem earlier_of_isPrefix {t u : α} {rest : List α} (h : placed ++ [t] <+: order)
    (htu : position t < position u) : Earlier position order (placed ++ u :: rest) := by
  obtain ⟨others, rfl⟩ := h
  simp only [Earlier, List.append_assoc, List.map_append, List.map_cons, List.singleton_append]
  exact List.append_left_lt (List.cons_lt_cons_iff.2 (.inl htu))

theorem arrange_earliest {rest : List α} (hpositions : things.Pairwise (position · < position ·))
    (h : arrange name needs things rest.length placed = .ok order)
    (hother : NeedsFirst name needs (placed ++ rest)) (hsubset : placed ++ rest ⊆ things)
    (hnodup : ((placed ++ rest).map name).Nodup) :
    placed ++ rest = order ∨ Earlier position order (placed ++ rest) := by
  induction rest generalizing placed with
  | nil =>
    obtain rfl : placed = order := by simpa [arrange] using h
    exact .inl (List.append_nil placed)
  | cons u rest ih =>
    rw [List.length_cons, arrange] at h
    split at h
    · rename_i t ht
      have hfresh : name u ∉ placed.map name := by
        rw [List.map_append, List.nodup_append] at hnodup
        exact fun hu => hnodup.2.2 (name u) hu (name u) (by simp) rfl
      rcases position_lt_of_ready? hpositions ht (hsubset (by simp)) hfresh
        (hother placed u rest rfl) with rfl | hlt
      · rw [List.append_cons] at hother hsubset hnodup ⊢
        exact ih h hother hsubset hnodup
      · exact .inr (earlier_of_isPrefix (prefix_arrange h) hlt)
    · cases h

theorem sorted_earliest {other : List α} (hpositions : things.Pairwise (position · < position ·))
    (hnodup : (things.map name).Nodup) (h : sorted name needs things = .ok order)
    (hother : IsOrdering name needs things other) :
    other = order ∨ Earlier position order other := by
  have hnodup' : (other.map name).Nodup := (hother.perm.map name).nodup_iff.2 hnodup
  change [] ++ other = order ∨ Earlier position order ([] ++ other)
  refine arrange_earliest hpositions ?_ hother.needsFirst hother.perm.subset hnodup'
  rw [hother.perm.length_eq]
  exact h

end Order

variable {F : Type} {ds : List (Descriptor F)} {r : Registry F} {ctx : Context}
  {aliases : List (String × String)} {ns : List (Node F)}

/-- Where a name stands among all that are registered. -/
def position (r : Registry F) (name : String) : Nat := r.names.idxOf name

theorem pairwise_idxOf_lt {names : List String} (h : names.Nodup) :
    names.Pairwise (names.idxOf · < names.idxOf ·) := by
  rw [List.pairwise_iff_getElem]
  intro i j hi hj hij
  rwa [h.idxOf_getElem i hi, h.idxOf_getElem j hj]

theorem pairwise_position_nodes (hr : r.names.Nodup)
    (hns : nodes (r.blueprints ctx) aliases = .ok ns) :
    ns.Pairwise fun m n => r.position m.name < r.position n.name := by
  have hsublist : (ns.map (·.name)).Sublist r.names := by
    rw [names_nodes hns, ← names_blueprints r ctx]
    exact List.filter_sublist.map _
  have hnames := (pairwise_idxOf_lt hr).sublist hsublist
  rwa [List.pairwise_map] at hnames

/-- Nodes that close no cycle are put in the earliest order there is: it has each of them after
what it needs, and every other such order has, where the two differ for the first time, a node that
was registered later. -/
theorem nodes_sorted_earliest (hregistry : Registry.empty.registerAll ds = .ok r)
    (hns : nodes (r.blueprints ctx) aliases = .ok ns)
    (hacyclic : Order.Acyclic (·.name) Node.prerequisites ns) :
    ∃ order, Order.sorted (·.name) Node.prerequisites ns = .ok order ∧
      Order.IsOrdering (·.name) Node.prerequisites ns order ∧
      ∀ other, Order.IsOrdering (·.name) Node.prerequisites ns other → other ≠ order →
        Order.Earlier (r.position ·.name) order other := by
  have hr : r.names.Nodup := nodup_names_registerAll hregistry List.nodup_nil
  have hnodup : (ns.map (·.name)).Nodup := nodup_names_nodes hns (by rwa [names_blueprints])
  obtain ⟨order, horder⟩ :=
    (Order.exists_sorted_iff hnodup (prerequisites_mem_names hns)).2 hacyclic
  refine ⟨order, horder, Order.isOrdering_sorted horder, fun other hother hne => ?_⟩
  exact (Order.sorted_earliest (pairwise_position_nodes hr hns) hnodup horder hother).resolve_left
    hne

/-- In the household the disk comes first and the cache after it; then the search and, before the
interface, the report, which is registered first and has to wait for it. -/
theorem nodes_sorted_earliest_household : Registry.empty.registerAll described = .ok household ∧
    ∃ aliases ns, nodes (household.blueprints default) aliases = .ok ns ∧
      Order.Acyclic (·.name) Node.prerequisites ns ∧
      ∃ order, Order.sorted (·.name) Node.prerequisites ns = .ok order ∧
        order.map (household.position ·.name) = [5, 3, 1, 0, 2] ∧
        ∀ other, Order.IsOrdering (·.name) Node.prerequisites ns other → other ≠ order →
          Order.Earlier (household.position ·.name) order other := by
  have hns : nodes (household.blueprints default) [("storage", "disk")] = .ok _ := rfl
  have hnodup : ((household.blueprints default).map (·.name)).Nodup := by decide
  have hacyclic := (Order.exists_sorted_iff (nodup_names_nodes hns hnodup)
    (prerequisites_mem_names hns)).1 ⟨_, rfl⟩
  obtain ⟨order, horder, -, hearliest⟩ :=
    nodes_sorted_earliest registerAll_household hns hacyclic
  obtain rfl := Except.ok.inj horder
  exact ⟨registerAll_household, _, _, hns, hacyclic, _, horder, by decide, hearliest⟩

end Steward.Registry
