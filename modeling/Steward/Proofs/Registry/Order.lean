import Mathlib.Data.Fintype.Card
import Mathlib.Data.List.Count
import Mathlib.Data.List.Nodup
import Mathlib.Data.Set.Finite.Basic
import Mathlib.Order.WellFounded
import Steward.Proofs.Sequence
import Steward.Registry.Order
/-!
The order of things that need each other. What is placed so far stands after its needs, each name
once; so when as many things are placed as there are, they are all placed. Things can be placed one
after the other until none is left exactly if none needs itself by way of the others.
-/
namespace Steward.Registry.Order

variable {α : Type} {name : α → String} {needs : α → List String} {things placed order : List α}

def NeedsFirst (name : α → String) (needs : α → List String) (order : List α) : Prop :=
  Prefixwise (fun before t => ∀ n ∈ needs t, n ∈ before.map name) order

theorem NeedsFirst.mem_names {t : α} {n : String} (h : NeedsFirst name needs order) (ht : t ∈ order)
    (hn : n ∈ needs t) : n ∈ order.map name := by
  obtain ⟨before, after, rfl⟩ := List.append_of_mem ht
  rw [List.map_append]
  exact List.mem_append_left _ (h before t after rfl n hn)

theorem of_ready? {names : List String} {t : α} (h : ready? name needs things names = some t) :
    t ∈ things ∧ name t ∉ names ∧ ∀ n ∈ needs t, n ∈ names := by
  have hmem : t ∈ things := List.mem_of_find?_eq_some h
  have ht := List.find?_some h
  simp only [Bool.and_eq_true, Bool.not_eq_true', List.all_eq_true, List.contains_iff_mem] at ht
  exact ⟨hmem, by simpa using ht.1, ht.2⟩

structure Arranged (name : α → String) (needs : α → List String) (things placed : List α) :
    Prop where
  subset : placed ⊆ things
  nodup : (placed.map name).Nodup
  needsFirst : NeedsFirst name needs placed

theorem arranged_nil : Arranged name needs things [] :=
  ⟨List.nil_subset _, List.nodup_nil, .nil⟩

theorem Arranged.place {t : α} (h : Arranged name needs things placed)
    (ht : ready? name needs things (placed.map name) = some t) :
    Arranged name needs things (placed ++ [t]) := by
  obtain ⟨hmem, hfresh, hneeds⟩ := of_ready? ht
  refine ⟨List.append_subset.2 ⟨h.subset, by simpa using hmem⟩, ?_, h.needsFirst.concat hneeds⟩
  rw [List.map_append, List.map_singleton, ← List.concat_eq_append]
  exact h.nodup.concat hfresh

theorem arranged_arrange {left : Nat} (h : Arranged name needs things placed)
    (hok : arrange name needs things left placed = .ok order) :
    Arranged name needs things order ∧ order.length = placed.length + left := by
  induction left generalizing placed with
  | zero =>
    obtain rfl : placed = order := by simpa [arrange] using hok
    exact ⟨h, rfl⟩
  | succ left ih =>
    rw [arrange] at hok
    split at hok
    · rename_i t ht
      obtain ⟨harranged, hlength⟩ := ih (h.place ht) hok
      refine ⟨harranged, ?_⟩
      rw [hlength, List.length_append, List.length_singleton]
      omega
    · cases hok

theorem sorted_perm (hok : sorted name needs things = .ok order) :
    order.Perm things ∧ NeedsFirst name needs order := by
  obtain ⟨h, hlength⟩ := arranged_arrange arranged_nil hok
  have hsub : order.Subperm things := List.subperm_of_subset h.nodup.of_map h.subset
  exact ⟨hsub.perm_of_length_le (by simp [hlength]), h.needsFirst⟩

def Requires (name : α → String) (needs : α → List String) (things : List α) (a b : String) :
    Prop := ∃ t ∈ things, name t = a ∧ b ∈ needs t

/-- Nothing needs itself, not even by way of others. -/
def Acyclic (name : α → String) (needs : α → List String) (things : List α) : Prop :=
  ∀ n, ¬ Relation.TransGen (Requires name needs things) n n

theorem NeedsFirst.acyclic (h : NeedsFirst name needs order) (hnodup : (order.map name).Nodup) :
    Acyclic name needs order := by
  refine not_transGen_of_rank (order.map name).idxOf ?_
  rintro a b ⟨t, ht, rfl, hb⟩
  obtain ⟨before, after, rfl⟩ := List.append_of_mem ht
  rw [List.map_append, List.map_cons] at hnodup ⊢
  exact idxOf_lt_of_before hnodup (h before t after rfl b hb)

theorem Acyclic.wellFounded (h : Acyclic name needs things) :
    WellFounded fun m n : {n // n ∈ things.map name} =>
      Relation.TransGen (Requires name needs things) n m := by
  have htrans : IsTrans {n // n ∈ things.map name} fun m n =>
      Relation.TransGen (Requires name needs things) n m :=
    ⟨fun _ _ _ hab hbc => hbc.trans hab⟩
  have hirrefl : Std.Irrefl fun m n : {n // n ∈ things.map name} =>
      Relation.TransGen (Requires name needs things) n m := ⟨fun n => h n⟩
  exact Finite.wellFounded_of_trans_of_irrefl _

theorem exists_unplaced_first {names : List String} (h : Acyclic name needs things)
    (hleft : ∃ n ∈ things.map name, n ∉ names) :
    ∃ n ∈ things.map name, n ∉ names ∧
      ∀ m ∈ things.map name, Requires name needs things n m → m ∈ names := by
  obtain ⟨n, hn, hnotin⟩ := hleft
  obtain ⟨⟨first, hfirst⟩, hunplaced, hmin⟩ :=
    h.wellFounded.has_min {m | m.1 ∉ names} ⟨⟨n, hn⟩, hnotin⟩
  refine ⟨first, hfirst, hunplaced, fun m hm hneed => ?_⟩
  by_contra hm'
  exact hmin ⟨m, hm⟩ hm' (.single hneed)

theorem exists_unplaced (hnodup : (things.map name).Nodup)
    (hleft : placed.length < things.length) : ∃ n ∈ things.map name, n ∉ placed.map name := by
  by_contra hall
  push Not at hall
  have hlength := (hnodup.subperm hall).length_le
  simp only [List.length_map] at hlength
  omega

theorem exists_ready (h : Acyclic name needs things) (hnodup : (things.map name).Nodup)
    (hclosed : ∀ t ∈ things, ∀ n ∈ needs t, n ∈ things.map name)
    (hleft : placed.length < things.length) :
    ∃ t, ready? name needs things (placed.map name) = some t := by
  obtain ⟨n, hn, hnotin, hneeds⟩ := exists_unplaced_first h (exists_unplaced hnodup hleft)
  obtain ⟨t, ht, rfl⟩ := List.mem_map.1 hn
  refine Option.isSome_iff_exists.1 (List.find?_isSome.2 ⟨t, ht, ?_⟩)
  have hall : ∀ m ∈ needs t, m ∈ placed.map name := fun m hm =>
    hneeds m (hclosed t ht m hm) ⟨t, ht, rfl, hm⟩
  simpa using ⟨by simpa using hnotin, by simpa using hall⟩

theorem exists_arrange {left : Nat} (h : Acyclic name needs things)
    (hnodup : (things.map name).Nodup)
    (hclosed : ∀ t ∈ things, ∀ n ∈ needs t, n ∈ things.map name)
    (hlength : placed.length + left = things.length) :
    ∃ order, arrange name needs things left placed = .ok order := by
  induction left generalizing placed with
  | zero => exact ⟨placed, rfl⟩
  | succ left ih =>
    have hleft : placed.length < things.length := by omega
    obtain ⟨t, ht⟩ := exists_ready h hnodup hclosed hleft
    rw [arrange, ht]
    exact ih (by rw [List.length_append, List.length_singleton]; omega)

theorem exists_sorted_iff (hnodup : (things.map name).Nodup)
    (hclosed : ∀ t ∈ things, ∀ n ∈ needs t, n ∈ things.map name) :
    (∃ order, sorted name needs things = .ok order) ↔ Acyclic name needs things := by
  constructor
  · rintro ⟨order, hok⟩
    obtain ⟨hperm, hfirst⟩ := sorted_perm hok
    have hrequires : Requires name needs things = Requires name needs order := by
      funext a b
      simp only [Requires, hperm.mem_iff]
    rw [Acyclic, hrequires]
    exact hfirst.acyclic ((hperm.map name).nodup_iff.2 hnodup)
  · intro h
    exact exists_arrange h hnodup hclosed (Nat.zero_add _)

end Steward.Registry.Order
