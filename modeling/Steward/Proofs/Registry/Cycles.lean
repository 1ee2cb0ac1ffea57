import Mathlib.Data.List.Chain
import Steward.Proofs.Registry.Acceptance
/-!
The cycle that planning reports. If nothing is ready while some things are left, each of these needs
another one of them. So whoever follows needs among them comes back to where he was, and what he
went through since then is a cycle, wherever he started.
-/
namespace Steward.Registry

namespace Order

variable {α : Type} {name : α → String} {needs : α → List String} {things placed path : List α}
  {names cycle : List String}

/-- A way from name to name that ends where it starts, and before that never comes to a name again
nor stays where it is. -/
structure IsCircle (R : String → String → Prop) (cycle : List String) : Prop where
  long : 3 ≤ cycle.length
  closed : cycle.head? = cycle.getLast?
  nodup : cycle.dropLast.Nodup
  chain : cycle.IsChain R

theorem isCircle_concat {R : String → String → Prop} {n : String} (hne : names ≠ [])
    (hnodup : (n :: names).Nodup) (hchain : (n :: names ++ [n]).IsChain R) :
    IsCircle R (n :: names ++ [n]) := by
  refine ⟨?_, ?_, ?_, hchain⟩
  · have hpos := List.length_pos_of_ne_nil hne
    simp only [List.length_append, List.length_cons, List.length_nil]
    omega
  · rw [List.getLast?_concat, List.cons_append, List.head?_cons]
  · rwa [List.dropLast_concat]

theorem IsCircle.exists_next {R : String → String → Prop} {n : String} (h : IsCircle R cycle)
    (hn : n ∈ cycle) : ∃ m, R n m := by
  have hlong := h.long
  obtain ⟨i, hi, rfl⟩ := List.getElem_of_mem hn
  by_cases hnext : i + 1 < cycle.length
  · exact ⟨_, h.chain.getElem i hnext⟩
  · have hhead : cycle[0] = cycle[i] := by
      have hclosed := h.closed
      rw [List.head?_eq_getElem?, List.getLast?_eq_getElem?, show cycle.length - 1 = i by omega,
        List.getElem?_eq_getElem (by omega), List.getElem?_eq_getElem hi] at hclosed
      exact Option.some.inj hclosed
    rw [← hhead]
    exact ⟨_, h.chain.getElem 0 (by omega)⟩

/-- Following missing needs from the end of a path, in as many rounds as it takes: a need that is
on the path already closes a cycle, and any other one lengthens the path. -/
inductive Closes (name : α → String) (needs : α → List String) (things : List α)
    (names : List String) : List α → List String → Prop
  | closed {path : List α} {last next : α} (hlast : path.getLast? = some last)
      (hnext : missing? name needs things names last = some next)
      (hon : name next ∈ path.map name) :
      Closes name needs things names path
        ((path.map name).dropWhile (· != name next) ++ [name next])
  | further {path : List α} {last next : α} {cycle : List String}
      (hlast : path.getLast? = some last)
      (hnext : missing? name needs things names last = some next)
      (hoff : name next ∉ path.map name)
      (h : Closes name needs things names (path ++ [next]) cycle) :
      Closes name needs things names path cycle

def IsStuck (name : α → String) (needs : α → List String) (things : List α)
    (names : List String) : Prop :=
  ∀ t ∈ things, name t ∉ names → ∃ u, missing? name needs things names t = some u

theorem of_missing? {t u : α} (h : missing? name needs things names t = some u) :
    u ∈ things ∧ name u ∈ needs t ∧ name u ∉ names := by
  have hmem : u ∈ things := List.mem_of_find?_eq_some h
  have hu := List.find?_some h
  simp only [Bool.and_eq_true, Bool.not_eq_true', List.contains_iff_mem] at hu
  exact ⟨hmem, hu.1, by simpa using hu.2⟩

theorem isStuck_of_ready? (hclosed : ∀ t ∈ things, ∀ n ∈ needs t, n ∈ things.map name)
    (h : ready? name needs things names = none) : IsStuck name needs things names := by
  intro t ht hleft
  have hnot := List.find?_eq_none.1 h t ht
  simp only [Bool.and_eq_true, Bool.not_eq_true', List.all_eq_true, List.contains_iff_mem,
    not_and] at hnot
  have hneed : ∃ n ∈ needs t, n ∉ names := by
    by_contra hall
    push Not at hall
    exact hnot (by simpa using hleft) hall
  obtain ⟨n, hn, hmissing⟩ := hneed
  obtain ⟨u, hu, rfl⟩ := List.mem_map.1 (hclosed t ht n hn)
  exact Option.isSome_iff_exists.1 (List.find?_isSome.2 ⟨u, hu, by simpa using ⟨hn, hmissing⟩⟩)

structure IsPath (name : α → String) (needs : α → List String) (things : List α)
    (names : List String) (path : List α) : Prop where
  ne_nil : path ≠ []
  subset : path ⊆ things
  left : ∀ t ∈ path, name t ∉ names
  nodup : (path.map name).Nodup
  chain : (path.map name).IsChain (Requires name needs things)

theorem isPath_singleton {start : α} (hstart : start ∈ things) (hleft : name start ∉ names) :
    IsPath name needs things names [start] :=
  ⟨List.cons_ne_nil _ _, by simpa using hstart, by simpa using hleft, by simp, by simp⟩

namespace IsPath

variable {last next : α} (h : IsPath name needs things names path)

include h

theorem length_le : path.length ≤ things.length :=
  (List.subperm_of_subset h.nodup.of_map h.subset).length_le

theorem exists_missing (hstuck : IsStuck name needs things names) :
    ∃ last next, path.getLast? = some last ∧ missing? name needs things names last = some next := by
  have hmem := List.getLast_mem h.ne_nil
  obtain ⟨next, hnext⟩ := hstuck _ (h.subset hmem) (h.left _ hmem)
  exact ⟨_, next, List.getLast?_eq_some_getLast h.ne_nil, hnext⟩

variable (hlast : path.getLast? = some last)
  (hnext : missing? name needs things names last = some next)

include hlast hnext

theorem chain_concat : ((path ++ [next]).map name).IsChain (Requires name needs things) := by
  have hmem : last ∈ things := h.subset (List.mem_of_getLast? hlast)
  rw [List.map_append, List.isChain_append]
  refine ⟨h.chain, by simp, ?_⟩
  intro a ha b hb
  simp only [List.getLast?_map, hlast, Option.map_some, Option.mem_some_iff] at ha
  simp only [List.map_singleton, List.head?_singleton, Option.mem_some_iff] at hb
  subst ha hb
  exact ⟨last, hmem, rfl, (of_missing? hnext).2.1⟩

theorem concat (hoff : name next ∉ path.map name) :
    IsPath name needs things names (path ++ [next]) := by
  obtain ⟨hmem, -, hleft⟩ := of_missing? hnext
  refine ⟨by simp, List.append_subset.2 ⟨h.subset, by simpa using hmem⟩, ?_, ?_,
    h.chain_concat hlast hnext⟩
  · intro t ht
    rcases List.mem_append.1 ht with ht | ht
    · exact h.left t ht
    · rwa [List.mem_singleton.1 ht]
  · rw [List.map_append, List.map_singleton, ← List.concat_eq_append]
    exact h.nodup.concat hoff

theorem isCircle (hself : ∀ t ∈ things, name t ∉ needs t) (hon : name next ∈ path.map name) :
    IsCircle (Requires name needs things)
      ((path.map name).dropWhile (· != name next) ++ [name next]) := by
  obtain ⟨t, ht, hname⟩ := List.mem_map.1 hon
  obtain ⟨before, after, rfl⟩ := List.append_of_mem ht
  have hnodup := h.nodup
  rw [List.map_append, List.nodup_append, List.map_cons] at hnodup
  have hbefore : ∀ n ∈ before.map name, (n != name next) = true := by
    intro n hn
    rw [← hname, bne_iff_ne]
    exact hnodup.2.2 n hn (name t) List.mem_cons_self
  have hdrop : ((before ++ t :: after).map name).dropWhile (· != name next) =
      name t :: after.map name := by
    rw [List.map_append, List.dropWhile_append_of_pos hbefore, List.map_cons,
      List.dropWhile_cons_of_neg (by simp [hname])]
  have hafter : after ≠ [] := by
    rintro rfl
    obtain rfl : t = last := by simpa using hlast
    exact hself t (h.subset ht) (hname ▸ (of_missing? hnext).2.1)
  have hchain := h.chain_concat hlast hnext
  simp only [List.append_assoc, List.map_append, List.cons_append, List.map_cons, List.map_nil,
    ← hname] at hchain
  rw [hdrop, ← hname]
  exact isCircle_concat (by simpa using hafter) hnodup.2.1 hchain.right_of_append

end IsPath

theorem Closes.isCircle (h : Closes name needs things names path cycle)
    (hpath : IsPath name needs things names path) (hself : ∀ t ∈ things, name t ∉ needs t) :
    IsCircle (Requires name needs things) cycle := by
  induction h with
  | closed hlast hnext hon => exact hpath.isCircle hlast hnext hself hon
  | further hlast hnext hoff _ ih => exact ih (hpath.concat hlast hnext hoff)

/-- A path of things that are left is shorter than all things, so it meets itself before the rounds
are over. -/
theorem closes_closeCycle {rounds : Nat} (hstuck : IsStuck name needs things names)
    (hpath : IsPath name needs things names path) (hrounds : things.length < path.length + rounds) :
    Closes name needs things names path (closeCycle name needs things names rounds path) := by
  induction rounds generalizing path with
  | zero =>
    have hle := hpath.length_le
    omega
  | succ rounds ih =>
    obtain ⟨last, next, hlast, hnext⟩ := hpath.exists_missing hstuck
    simp only [closeCycle, hlast, hnext]
    split
    · rename_i hon
      exact .closed hlast hnext (by simpa using hon)
    · rename_i hon
      have hoff : name next ∉ path.map name := by simpa using hon
      refine .further hlast hnext hoff (ih (hpath.concat hlast hnext hoff) ?_)
      rw [List.length_append, List.length_singleton]
      omega

/-- How a cycle is found: some things are placed, none of the others is ready, and a search starts
from the first of them. -/
structure Searches (name : α → String) (needs : α → List String) (things placed : List α)
    (start : α) (cycle : List String) : Prop where
  arranged : Arranged name needs things placed
  stuck : ready? name needs things (placed.map name) = none
  first : (things.find? fun t => !(placed.map name).contains (name t)) = some start
  closes : Closes name needs things (placed.map name) [start] cycle

theorem exists_of_arrange_error {left : Nat} (harranged : Arranged name needs things placed)
    (hlength : placed.length + left = things.length)
    (h : arrange name needs things left placed = .error cycle) :
    ∃ placed : List α, Arranged name needs things placed ∧ placed.length < things.length ∧
      ready? name needs things (placed.map name) = none ∧
      cycle = findCycle name needs things (placed.map name) := by
  induction left generalizing placed with
  | zero => cases h
  | succ left ih =>
    rw [arrange] at h
    split at h
    · rename_i t ht
      refine ih (harranged.place ht) ?_ h
      rw [List.length_append, List.length_singleton]
      omega
    · rename_i hready
      exact ⟨placed, harranged, by omega, hready, (Except.error.inj h).symm⟩

theorem exists_searches (hnodup : (things.map name).Nodup)
    (hclosed : ∀ t ∈ things, ∀ n ∈ needs t, n ∈ things.map name)
    (h : sorted name needs things = .error cycle) :
    ∃ placed start, Searches name needs things placed start cycle := by
  obtain ⟨placed, harranged, hlength, hready, rfl⟩ :=
    exists_of_arrange_error arranged_nil (Nat.zero_add _) h
  obtain ⟨n, hn, hleft⟩ := exists_unplaced hnodup hlength
  obtain ⟨t, ht, rfl⟩ := List.mem_map.1 hn
  have hsome : (things.find? fun t => !(placed.map name).contains (name t)).isSome = true :=
    List.find?_isSome.2 ⟨t, ht, by simpa using hleft⟩
  obtain ⟨start, hstart⟩ := Option.isSome_iff_exists.1 hsome
  refine ⟨placed, start, harranged, hready, hstart, ?_⟩
  have hfresh : name start ∉ placed.map name := by simpa using List.find?_some hstart
  have hpath : IsPath name needs things (placed.map name) [start] :=
    isPath_singleton (List.mem_of_find?_eq_some hstart) hfresh
  rw [findCycle, hstart]
  exact closes_closeCycle (isStuck_of_ready? hclosed hready) hpath (by simp)

theorem Searches.isCircle {start : α} (h : Searches name needs things placed start cycle)
    (hself : ∀ t ∈ things, name t ∉ needs t) : IsCircle (Requires name needs things) cycle := by
  have hfresh : name start ∉ placed.map name := by simpa using List.find?_some h.first
  exact h.closes.isCircle (isPath_singleton (List.mem_of_find?_eq_some h.first) hfresh) hself

end Order

variable {F : Type} {ds : List (Descriptor F)} {r : Registry F} {ctx : Context}
  {aliases : List (String × String)} {bs : List (Blueprint F)} {ns : List (Node F)}
  {cycle : List String}

theorem refer_ne_circularDependency {owner target : String} :
    refer bs aliases owner target ≠ .error (.circularDependency cycle) := by
  intro h
  simp only [refer] at h
  split at h
  · cases h
  · split at h <;> cases h

theorem nodes_ne_circularDependency :
    nodes bs aliases ≠ .error (.circularDependency cycle) := by
  intro h
  rcases bind_eq_error.1 h with h | ⟨found, -, h⟩
  · obtain ⟨b, -, h⟩ := exists_of_mapM_error h
    unfold node? at h
    split at h
    · cases h
    · rcases bind_eq_error.1 h with h | ⟨dependencies, -, h⟩
      · obtain ⟨d, -, h⟩ := exists_of_mapM_error h
        exact refer_ne_circularDependency h
      · rcases bind_eq_error.1 h with h | ⟨links, -, h⟩
        · obtain ⟨l, -, h⟩ := exists_of_mapM_error h
          rcases bind_eq_error.1 h with h | ⟨target, -, h⟩
          · exact refer_ne_circularDependency h
          · cases h
        · cases h
  · cases h

theorem of_plan_eq_circularDependency
    (h : (r.plan ctx).2 = .error (.circularDependency cycle)) :
    ∃ aliases ns, (resolveAll (r.blueprints ctx) ctx (r.blueprints ctx)).2 = .ok aliases ∧
      nodes (r.blueprints ctx) aliases = .ok ns ∧
        Order.sorted (·.name) Node.prerequisites ns = .error cycle := by
  rw [plan_snd] at h
  rcases bind_eq_error.1 h with h | ⟨aliases, haliases, h⟩
  · obtain ⟨_, _, h⟩ := resolveAll_eq_error h
    cases h
  · rcases bind_eq_error.1 h with h | ⟨ns, hns, h⟩
    · exact absurd h nodes_ne_circularDependency
    · refine ⟨aliases, ns, haliases, hns, ?_⟩
      split at h
      · cases h
      · rename_i hsorted
        cases h
        exact hsorted

theorem name_not_mem_prerequisites (hns : nodes bs aliases = .ok ns) :
    ∀ n ∈ ns, n.name ∉ n.prerequisites := by
  intro n hn hself
  obtain ⟨b, -, hrep⟩ := exists_left_of_forall₂ (represents_of_nodes hns) hn
  exact (hrep.isConcrete _ hself).2 hrep.name

/-- A plan that is circular reports a cycle of concrete components each of which refers to the next:
at least two of them, none twice, and the first again at the end. Where nothing can be placed any
more, following what is missing comes to this cycle after finitely many rounds, and never stops at
a component that misses nothing. -/
theorem circular_plan_reports_circle (hregistry : Registry.empty.registerAll ds = .ok r)
    (h : (r.plan ctx).2 = .error (.circularDependency cycle)) :
    Order.IsCircle (Refers (r.blueprints ctx) ctx) cycle ∧
      (∀ n ∈ cycle, IsConcrete (r.blueprints ctx) n) ∧
      ∃ aliases ns placed start,
        (resolveAll (r.blueprints ctx) ctx (r.blueprints ctx)).2 = .ok aliases ∧
          nodes (r.blueprints ctx) aliases = .ok ns ∧
            Order.Searches (·.name) Node.prerequisites ns placed start cycle := by
  have hr : r.names.Nodup := nodup_names_registerAll hregistry List.nodup_nil
  have hbs : ((r.blueprints ctx).map (·.name)).Nodup := by rwa [names_blueprints]
  obtain ⟨aliases, ns, haliases, hns, hsorted⟩ := of_plan_eq_circularDependency h
  obtain ⟨placed, start, hsearches⟩ :=
    Order.exists_searches (nodup_names_nodes hns hbs) (prerequisites_mem_names hns) hsorted
  have hcircle := hsearches.isCircle (name_not_mem_prerequisites hns)
  obtain ⟨-, rfl⟩ := (resolveAll_eq_ok_iff hbs).1 haliases
  rw [requires_nodes_eq_refers hbs hns] at hcircle
  refine ⟨hcircle, fun n hn => ?_, _, ns, placed, start, haliases, hns, hsearches⟩
  obtain ⟨m, b, hb, hconcrete, hname, -⟩ := hcircle.exists_next hn
  exact ⟨b, hb, hname, hconcrete⟩

/-- The report waits for the search and the search for the storage, which is the cache; and that has
a link back onto the search. Only the disk can be placed. -/
def encircled : List (Descriptor Unit) :=
  [{ toBlueprint := (Blueprint.concrete "report" ()).dependsOn "search" },
    { toBlueprint := Blueprint.concrete "disk" () },
    { toBlueprint := (Blueprint.concrete "search" ()).dependsOn "storage" },
    { toBlueprint := Blueprint.abstract "storage" ⟨"resolve", fun _ => "cache"⟩ },
    { Blueprint.concrete "cache" () with
      dependencies := ["disk"], implements := ["storage"], links := [{ target := "search" }] }]

theorem circular_plan_reports_circle_encircled :
    Registry.empty.registerAll encircled = .ok ⟨encircled⟩ ∧
      (plan ⟨encircled⟩ default).2 = .error (.circularDependency ["search", "cache", "search"]) ∧
      Order.IsCircle (Refers (blueprints ⟨encircled⟩ default) default)
        ["search", "cache", "search"] ∧
      (∀ n ∈ ["search", "cache", "search"], IsConcrete (blueprints ⟨encircled⟩ default) n) ∧
      ∃ aliases ns placed start,
        (resolveAll (blueprints ⟨encircled⟩ default) default (blueprints ⟨encircled⟩ default)).2 =
            .ok aliases ∧
          nodes (blueprints ⟨encircled⟩ default) aliases = .ok ns ∧
            Order.Searches (·.name) Node.prerequisites ns placed start
              ["search", "cache", "search"] := by
  have hregistry : Registry.empty.registerAll encircled = .ok ⟨encircled⟩ := rfl
  have hplan : (plan ⟨encircled⟩ default).2 =
    .error (.circularDependency ["search", "cache", "search"]) := rfl
  exact ⟨hregistry, hplan, circular_plan_reports_circle hregistry hplan⟩

end Steward.Registry
