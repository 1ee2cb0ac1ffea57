import Mathlib.Data.List.Induction
import Steward.Core.Hook
import Steward.Proofs.Link.Walk
/-!
The route of a pass. A route that comes to its end visits all that the start is connected with,
once each and after the targets of its links. A route that runs into a cycle has found a way round:
one that leaves a component by a link of it and comes back by a link onto it.

A way round need not be a cycle of links. A component with two ties into a triangle without any
cycle has one, so a pass that begins there fails, while passes that begin elsewhere may not.
-/
namespace Steward.Link

variable {ρ : Type} {t : Topology ρ} {op : Operation} {start : String} {token : Token}

/-- How far a pass has come when its route is worked out. -/
def destination (t : Topology ρ) (op : Operation) (start : String) (token : Token) : Progress ρ :=
  visit t op (t.names.length + 2) false {} (start, token)

theorem route_eq : route t op start token = (destination t op start token).toRoute := rfl

theorem sound_nothing : Sound t op start token ({} : Progress ρ) where
  nodup := List.nodup_nil
  reaches n hn := absurd hn List.not_mem_nil
  found v hv := absurd hv List.not_mem_nil
  targetsFirst := .nil
  tokenFits v hv := absurd hv List.not_mem_nil
  stacked below x y above h := by simp at h

theorem visitable_start : Visitable t op start token ({} : Progress ρ) false start token where
  sound := sound_nothing
  fine := rfl
  mem := List.mem_cons_self
  reaches := .refl
  enterable _ below x h := by simp at h
  tokenFits _ := .inl ⟨rfl, rfl⟩
  begun := .inr rfl
  target _ h := absurd h List.not_mem_nil

theorem length_fresh_nothing_lt :
    (fresh t start ({} : Progress ρ)).length < t.names.length + 2 := by
  have h : (fresh t start ({} : Progress ρ)).length ≤ (start :: t.names).length :=
    List.length_filter_le _ _
  rw [List.length_cons] at h
  omega

theorem extends_destination (ht : t.Complete) (op : Operation) (start : String) (token : Token) :
    Extends t op start token {} (destination t op start token) ∧
      ((destination t op start token).fault = none →
        start ∈ (destination t op start token).done) := by
  obtain ⟨hext, hsettled⟩ := walks ht (t.names.length + 2) visitable_start length_fresh_nothing_lt
  exact ⟨hext, fun hf => (hsettled hf).mem_done⟩

structure Covers (t : Topology ρ) (op : Operation) (start : String) (token : Token)
    (visits : List (Visit ρ)) : Prop where
  nodup : (visits.map (·.name)).Nodup
  mem_iff : ∀ n, n ∈ visits.map (·.name) ↔ t.Reaches op start n
  found : ∀ v ∈ visits, t.find v.name = .ok v.found
  targetsFirst : TargetsFirst t op visits
  tokenFits : ∀ v ∈ visits, TokenFits t op start token v.name v.token

theorem covers_route (ht : t.Complete) (hf : (route t op start token).fault = none) :
    Covers t op start token (route t op start token).visits := by
  obtain ⟨hext, hstart⟩ := extends_destination ht op start token
  have hpending : (destination t op start token).pending = [] := hext.pending hf
  have hbegun : (destination t op start token).begun = (destination t op start token).done := by
    rw [Progress.begun, hpending, List.append_nil]
  have hnodup : (destination t op start token).done.Nodup := hbegun ▸ hext.sound.nodup
  refine ⟨hnodup, fun n => ⟨fun hn => ?_, fun hn => ?_⟩, hext.sound.found,
    hext.sound.targetsFirst, hext.sound.tokenFits⟩
  · exact hext.sound.reaches n (Progress.mem_begun.2 (.inl hn))
  · induction hn with
    | refl => exact hstart hf
    | tail _ hlead ih =>
      have hmem := hext.closed hf _ ih List.not_mem_nil _ hlead
      rwa [hbegun] at hmem

theorem found_of_mem_route (ht : t.Complete) {v : Visit ρ}
    (hv : v ∈ (route t op start token).visits) :
    t.Reaches op start v.name ∧ t.find v.name = .ok v.found := by
  obtain ⟨hext, -⟩ := extends_destination ht op start token
  refine ⟨hext.sound.reaches v.name (Progress.mem_begun.2 (.inl ?_)), hext.sound.found v hv⟩
  exact List.mem_map_of_mem hv

/-- What a pass reports as a cycle: components, each of which leads on to the next one over a
target of its own without going through it or those before, and at the end a link back onto one of
them. -/
def IsWayRound (t : Topology ρ) (op : Operation) (path : List String) : Prop :=
  ∃ pending x z, path = pending ++ [x] ∧ pending.Nodup ∧ x ∈ pending ∧
    pending.getLast? = some z ∧ t.Ties op z x ∧ Stacked t op pending

theorem Stacked.dropLast {pending : List String} {y : String}
    (h : Stacked t op (pending ++ [y])) : Stacked t op pending := by
  intro below u v above heq
  exact h below u v (above ++ [y]) (by simp [heq])

/-- From a component to all above it in a stack there is a way that leaves it by a link of it and
does not come back to it. -/
theorem Stacked.connectedBeside (ht : t.Mirrored) {below above : List String} {x z : String}
    (h : Stacked t op (below ++ x :: above)) (hnodup : (below ++ x :: above).Nodup)
    (hz : z ∈ above) : ∃ b, t.Ties op x b ∧ t.ConnectedBeside op x b z := by
  induction above using List.reverseRecOn generalizing z with
  | nil => exact absurd hz List.not_mem_nil
  | append_singleton above y ih =>
    rw [← List.cons_append, ← List.append_assoc] at h hnodup
    have hsub : (below ++ x :: above).Nodup := (List.nodup_append.1 hnodup).1
    rcases List.mem_append.1 hz with hz | hz
    · exact ih h.dropLast hsub hz
    obtain rfl := List.mem_singleton.1 hz
    rcases List.eq_nil_or_concat above with rfl | ⟨above', u, rfl⟩
    · obtain ⟨b, htie, hpast⟩ := h below x z [] (by simp)
      exact ⟨b, htie, hpast.connectedBeside ht (by simp)⟩
    · rw [List.concat_eq_append] at ih h hnodup hsub
      obtain ⟨b, htie, hbeside⟩ := ih h.dropLast hsub List.mem_concat_self
      obtain ⟨c, htie', hpast⟩ := h (below ++ x :: above') u z [] (by simp)
      have hux : u ≠ x := by
        rintro rfl
        simp [List.nodup_append] at hsub
      have hzx : z ≠ x := by
        rintro rfl
        simp [List.nodup_append] at hnodup
      have hrest : t.ConnectedBeside op x c z := hpast.connectedBeside ht (by simp)
      have hcx : c ≠ x := hrest.ne_of_ne hzx
      exact ⟨b, htie, (hbeside.tail ⟨.inl htie', hux, hcx⟩).trans hrest⟩

theorem IsWayRound.exists_detour (ht : t.Mirrored) {path : List String}
    (h : IsWayRound t op path) : ∃ x ∈ path, t.Detour op x := by
  obtain ⟨pending, x, z, rfl, hnodup, hx, hz, htie, hstack⟩ := h
  refine ⟨x, by simp, ?_⟩
  obtain ⟨below, above, rfl⟩ := List.append_of_mem hx
  rcases List.eq_nil_or_concat above with rfl | ⟨above', u, rfl⟩
  · obtain rfl : x = z := by simpa using hz
    exact ⟨x, x, htie, htie, .refl⟩
  · rw [List.concat_eq_append] at hz hnodup hstack
    obtain rfl : u = z := by
      rwa [← List.cons_append, ← List.append_assoc, List.getLast?_concat, Option.some.injEq] at hz
    obtain ⟨b, hxb, hbeside⟩ := hstack.connectedBeside ht hnodup (List.mem_concat_self)
    exact ⟨b, u, hxb, htie, hbeside⟩

theorem fault_route (ht : t.Complete) {fault : Fault}
    (hf : (route t op start token).fault = some fault) :
    (∃ n, t.Reaches op start n ∧ t.find n = .error fault) ∨
      ∃ path, fault = .linkCycle path ∧ IsWayRound t op path ∧
        ∀ n ∈ path, t.Reaches op start n := by
  obtain ⟨hext, -⟩ := extends_destination ht op start token
  rcases hext.blamed fault hf with hmissing | ⟨x, z, hx, hz, htie, rfl⟩
  · exact .inl hmissing
  · have hreaches : ∀ n ∈ (destination t op start token).pending, t.Reaches op start n :=
      fun n hn => hext.sound.reaches n (Progress.mem_begun.2 (.inr hn))
    have hnodup := (List.nodup_append.1 hext.sound.nodup).2.1
    refine .inr ⟨_, rfl, ⟨_, x, z, rfl, hnodup, hx, hz, htie, hext.sound.stacked⟩, fun n hn => ?_⟩
    rcases List.mem_append.1 hn with hn | hn
    · exact hreaches n hn
    · exact List.mem_singleton.1 hn ▸ hreaches x hx

/-- What is connected with a component beside another one is done together with it, when the
targets of that other one are. -/
theorem mem_done_of_connectedBeside (ht : t.Mirrored) {q : Progress ρ} {x a b : String}
    (hq : ∀ a ∈ q.done, ∀ b, t.Leads op a b → b ∈ q.done ∨ b = x) (ha : a ∈ q.done)
    (h : t.ConnectedBeside op x a b) : b ∈ q.done := by
  induction h with
  | refl => exact ha
  | tail _ hstep ih =>
    obtain ⟨htied, -, hx⟩ := hstep
    exact (hq _ ih _ ((Topology.leads_iff ht).2 htied)).resolve_right hx

theorem fault_route_of_detour (ht : t.Complete) (hm : t.Mirrored) (h : t.Detour op start) :
    (route t op start token).fault ≠ none := by
  obtain ⟨b, a, hb, ha, hbeside⟩ := h
  intro hf
  rw [route_eq, destination, visit_of_not_mem List.not_mem_nil] at hf
  have hwalks : Walks t op start token (t.names.length + 1) := walks ht _
  obtain ⟨hext, htargets⟩ :=
    hwalks.targets ht visitable_start List.not_mem_nil length_fresh_nothing_lt
  revert hf hext htargets
  generalize throughTargets t op (t.names.length + 1) {} start = q
  intro hf hext htargets
  have hq : q.fault = none := by
    by_contra hne
    rw [if_pos (Option.isSome_iff_ne_none.2 hne)] at hf
    exact hne hf
  have hpending : q.pending = [start] := hext.pending hq
  have hnodup : start ∉ q.done := fun hmem => by
    have hdisjoint := (List.nodup_append.1 hext.sound.nodup).2.2 start hmem start
    simp [hpending] at hdisjoint
  have hclosed : ∀ a ∈ q.done, ∀ b, t.Leads op a b → b ∈ q.done ∨ b = start := by
    intro a ha b hab
    have hmem := hext.closed hq a ha (by simp [Progress.done, Progress.enter]) b hab
    rcases Progress.mem_begun.1 hmem with hmem | hmem
    · exact .inl hmem
    · exact .inr (by simpa [hpending] using hmem)
  have hdone : a ∈ q.done := mem_done_of_connectedBeside hm hclosed (htargets hq b hb) hbeside
  -- the start is a target of what comes back to it, and so it would be done before
  obtain ⟨v, hv, rfl⟩ := List.mem_map.1 hdone
  obtain ⟨before, after, hsplit⟩ := List.append_of_mem hv
  have hmem := hext.sound.targetsFirst before v after hsplit start ha
  exact hnodup (by simp [Progress.done, hsplit, List.mem_map.1 hmem])

/-- Three components: a store, a cache with a link onto the store, and an interface with links onto
both. All links are followed by both operations. -/
def triangle : Topology CellId :=
  .ofLinks ["store", "cache", "api"]
    [("cache", { target := "store", toDestroy := true }),
      ("api", { target := "store", toDestroy := true }),
      ("api", { target := "cache", toDestroy := true })]
    fun name => match ["store", "cache", "api"].idxOf? name with
      | some cell => .ok cell
      | none => .error (.componentNotFound name)

theorem complete_triangle : triangle.Complete :=
  Topology.complete_ofLinks (by decide)

theorem mirrored_triangle : triangle.Mirrored := Topology.mirrored_ofLinks _ _ _

theorem acyclic_triangle (op : Operation) : triangle.Acyclic op := by
  refine Topology.acyclic_of_rank (fun n => ["store", "cache", "api"].idxOf n) fun a b h => ?_
  obtain ⟨l, hl, rfl, rfl, -⟩ := Topology.ties_ofLinks.1 h
  have hdown : ∀ l ∈ [("cache", ({ target := "store", toDestroy := true } : Link)),
      ("api", { target := "store", toDestroy := true }),
      ("api", { target := "cache", toDestroy := true })],
      ["store", "cache", "api"].idxOf l.2.target < ["store", "cache", "api"].idxOf l.1 := by
    decide
  exact hdown l hl

theorem cache_ties_store (op : Operation) : triangle.Ties op "cache" "store" :=
  ⟨{ target := "store", toDestroy := true }, by decide, by cases op <;> rfl, rfl⟩

theorem api_ties_store (op : Operation) : triangle.Ties op "api" "store" :=
  ⟨{ target := "store", toDestroy := true }, by decide, by cases op <;> rfl, rfl⟩

theorem api_ties_cache (op : Operation) : triangle.Ties op "api" "cache" :=
  ⟨{ target := "cache", toDestroy := true }, by decide, by cases op <;> rfl, rfl⟩

/-- The store and the cache alone, with one link between them. -/
def pair : Topology CellId :=
  .ofLinks ["store", "cache"] [("cache", { target := "store", toDestroy := true })] triangle.find

theorem complete_pair : pair.Complete := Topology.complete_ofLinks (by decide)

theorem mirrored_pair : pair.Mirrored := Topology.mirrored_ofLinks _ _ _

theorem not_detour_pair (op : Operation) (x : String) : ¬ pair.Detour op x := by
  rintro ⟨b, a, hb, ha, -⟩
  obtain ⟨l, hl, rfl, -⟩ := Topology.ties_ofLinks.1 hb
  obtain ⟨l', hl', -, htarget, -⟩ := Topology.ties_ofLinks.1 ha
  simp only [List.mem_singleton] at hl hl'
  subst hl hl'
  exact absurd htarget (by decide)

theorem detour_cache (op : Operation) : triangle.Detour op "cache" :=
  ⟨"store", "api", cache_ties_store op, api_ties_cache op,
    .single ⟨.inr (api_ties_store op), by decide, by decide⟩⟩

end Steward.Link
