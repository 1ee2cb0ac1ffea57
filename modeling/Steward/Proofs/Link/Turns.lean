import Steward.Proofs.Link.Descent
import Steward.Proofs.Link.Propagation
/-!
What becomes of a pass where links close cycles. Its visits are carried out in turn, each at most
once and after those of its targets, and that holds of what was carried out before a fault as well.
So whatever a cycle can be reached from over links is neither built nor destroyed, and a pass that
is connected with a cycle does not come to its end.
-/
namespace Steward.Link

open Steward.Action

variable {K : Kit} {others : World K → World K → Prop} {t : Topology CellId} {op : Operation}
  {start : String} {token : Token} {w : World K}

/-- Visits are carried out one after the other, among others, up to the first that aborts; with what
was done before, and with what is answered in the end. -/
inductive Carries (others : World K → World K → Prop) (op : Operation) :
    World K → Propagation → List (Visit CellId) → Calls K → Except Fault Propagation → Prop
  | none {w : World K} {p : Propagation} : Carries others op w p [] [] (.ok p)
  | next {u w : World K} {p : Propagation} {v : Visit CellId} {vs : List (Visit CellId)}
      {first later : Calls K} {reports : List Report} {r : Except Fault Propagation}
      (run : Runs others (v.run op) u first (.done (.ok reports)) w)
      (rest : Carries others op w ⟨p.visited ++ [v.name], p.reports ++ reports⟩ vs later r) :
      Carries others op u p (v :: vs) (first ++ later) r
  | abort {u w : World K} {p : Propagation} {v : Visit CellId} {calls : Calls K} {fault : Fault}
      (run : Runs others (v.run op) u calls (.done (.error fault)) w) :
      Carries others op u p [v] calls (.error fault)

theorem exists_carries {visits : List (Visit CellId)} {p : Propagation} {calls : Calls K}
    {r : Except Fault Propagation} {v : World K}
    (run : Runs others (runVisits op visits p) w calls (.done r) v) :
    ∃ ran, ran <+: visits ∧ Carries others op w p ran calls r ∧ ∀ q, r = .ok q → ran = visits := by
  induction visits generalizing p w calls with
  | nil =>
    obtain ⟨rfl, hr⟩ := run.of_done
    cases hr
    exact ⟨[], List.prefix_refl _, .none, fun _ _ => rfl⟩
  | cons u visits ih =>
    obtain ⟨first, answer, x, later, rfl, hfirst, hlater⟩ := run.split
    rcases answer with fault | reports
    · obtain ⟨rfl, hr⟩ := hlater.of_done
      cases hr
      refine ⟨[u], ⟨visits, rfl⟩, ?_, fun q hq => by cases hq⟩
      rw [List.append_nil]
      exact .abort hfirst
    · obtain ⟨ran, hprefix, hcarries, hall⟩ := ih hlater
      exact ⟨u :: ran, (List.prefix_cons_inj u).2 hprefix, .next hfirst hcarries,
        fun q hq => by rw [hall q hq]⟩

/-- While cells stay where they are, a visit calls no hooks but once those of what was found, and
ends in no fault but that of a build that aborts. -/
theorem Visit.of_runs {v : Visit CellId} {calls : Calls K} {r : Except Fault (List Report)}
    {x : World K} (hothers : ∀ u v, others u v → World.KeepsCells (fun _ => False) u v)
    (run : Runs others (v.run op) w calls (.done r) x) :
    (ofMembers calls).Sublist [v.invocation op] ∧
      ∀ fault, r = .error fault → op = .build ∧ ∃ name message, fault = .buildAborted name message := by
  have hends := (run.weaken hothers).ends (meets_visit_of (T := keeping fun _ _ => True)
    (hosts_keeping fun _ _ _ => trivial) v fun _ => trivial)
  obtain ⟨hcalls, name, -, hanswers⟩ := hends
  constructor
  · rcases hcalls with (hcalls | ⟨hcalls, -⟩) | ⟨-, hcalls⟩ <;> simp [hcalls]
  · rintro fault rfl
    exact ⟨hanswers.1, name, hanswers.2⟩

theorem Carries.sublist {visits : List (Visit CellId)} {p : Propagation} {calls : Calls K}
    {r : Except Fault Propagation} (h : Carries others op w p visits calls r)
    (hothers : ∀ u v, others u v → World.KeepsCells (fun _ => False) u v) :
    (ofMembers calls).Sublist (visits.map (·.invocation op)) := by
  induction h with
  | none => simp
  | next run _ ih =>
    rw [ofMembers_append, List.map_cons, ← List.singleton_append]
    exact (Visit.of_runs hothers run).1.append ih
  | abort run => exact (Visit.of_runs hothers run).1

theorem Carries.isAbort {visits : List (Visit CellId)} {p : Propagation} {calls : Calls K}
    {fault : Fault} (h : Carries others op w p visits calls (.error fault))
    (hothers : ∀ u v, others u v → World.KeepsCells (fun _ => False) u v) :
    IsAbort op (.error fault) := by
  generalize hr : Except.error fault = r at h
  induction h with
  | none => cases hr
  | next _ _ ih => exact ih hr
  | abort run =>
    cases hr
    obtain ⟨hop, name, message, rfl⟩ := (Visit.of_runs hothers run).2 _ rfl
    exact ⟨hop, name, message, rfl⟩

/-- A call that builds or destroys a component concerns one that the start leads to and that no
cycle of links can be reached from. -/
def IsOffCycles (t : Topology CellId) (op : Operation) (start : String) (what : Invocation) :
    Prop :=
  ∀ cell, (what = .destroy cell ∨ ∃ token, what = .build cell token) →
    ∃ n, t.Reaches op start n ∧ t.find n = .ok cell ∧ t.Grounded op n

theorem isOffCycles_of_mini {what : Invocation} (h : what.isOfMini = true) :
    IsOffCycles t op start what := fun _ hcell => absurd hcell (not_member_of_mini h)

theorem Orderly.isOffCycles {visits : List (Visit CellId)} (h : Orderly t op start visits)
    {v : Visit CellId} (hv : v ∈ visits) : IsOffCycles t op start (v.invocation op) := by
  intro cell hcell
  obtain rfl := Visit.found_of_invocation hcell
  exact ⟨v.name, (h.found v hv).1, (h.found v hv).2, h.grounded v hv⟩

theorem meets_runVisits_offCycles {visits : List (Visit CellId)}
    (h : ∀ v ∈ visits, IsOffCycles t op start (v.invocation op)) (p : Propagation) :
    Meets (keeping fun what _ => IsOffCycles t op start what) (runVisits op visits p)
      (fun _ _ _ => True) w := by
  induction visits generalizing p w with
  | nil => exact Meets.pure fun _ _ => trivial
  | cons v visits ih =>
    obtain ⟨hv, hrest⟩ := List.forall_mem_cons.1 h
    refine Meets.seq (meets_visit_of (hosts_keeping fun _ _ => isOffCycles_of_mini) v fun _ => hv)
      fun _ r _ _ _ => ?_
    rcases r with fault | reports
    · exact Meets.pure fun _ _ => trivial
    · exact ih hrest _

theorem meets_spread_offCycles (ht : t.Complete) (token : Token) :
    Meets (keeping fun what _ => IsOffCycles t op start what) (spread t op start token)
      (fun _ _ _ => True) w := by
  rw [spread, Route.run_eq]
  exact Meets.seq (meets_runVisits_offCycles (fun v hv => (orderly_route ht).isOffCycles hv) {})
    fun _ _ _ _ _ => Meets.pure fun _ _ => trivial

/-- What a pass did that came to an end, with a fault or without: which visits it carried out, and
how that went. -/
structure Proceeds (others : World K → World K → Prop) (t : Topology CellId) (op : Operation)
    (start : String) (token : Token) (w : World K) (ran : List (Visit CellId)) (calls : Calls K)
    (r : Except Fault Propagation) : Prop where
  carries : ∃ s, Carries others op w {} ran calls s ∧ r = (route t op start token).ends s ∧
    ∀ p, s = .ok p → ran = (route t op start token).visits
  orderly : Orderly t op start ran
  sublist : (ofMembers calls).Sublist (ran.map (·.invocation op))

theorem exists_proceeds (ht : t.Complete) {calls : Calls K} {r : Except Fault Propagation}
    {v : World K} (hothers : ∀ u v, others u v → World.KeepsCells (fun _ => False) u v)
    (run : Runs others (spread t op start token) w calls (.done r) v) :
    ∃ ran, Proceeds others t op start token w ran calls r := by
  obtain ⟨s, u, rfl, hvisits, -⟩ := exists_runs_visits run
  obtain ⟨ran, hprefix, hcarries, hall⟩ := exists_carries hvisits
  exact ⟨ran, ⟨s, hcarries, rfl, hall⟩, (orderly_route ht).of_isPrefix hprefix,
    hcarries.sublist hothers⟩

/-- A pass that is connected with a cycle of links, and misses no component, is told so in the end,
unless a build aborts before. -/
theorem Proceeds.of_cycle (ht : t.Complete) (hm : t.Mirrored) {ran : List (Visit CellId)}
    {calls : Calls K} {r : Except Fault Propagation} {x : String}
    (h : Proceeds others t op start token w ran calls r)
    (hothers : ∀ u v, others u v → World.KeepsCells (fun _ => False) u v)
    (hfound : ∀ n, t.Connected op start n → ∃ cell, t.find n = .ok cell)
    (hx : t.Connected op start x) (hcycle : Relation.TransGen (t.Ties op) x x) :
    (∃ path, r = .error (.linkCycle path)) ∨ IsAbort op r := by
  obtain ⟨s, hcarries, rfl, -⟩ := h.carries
  rcases s with fault | p
  · exact .inr (hcarries.isAbort hothers)
  · have hreaches : t.Reaches op start x := (Topology.reaches_iff hm).2 hx
    have hfault : (route t op start token).fault ≠ none :=
      fault_route_of_not_grounded ht hreaches fun hgrounded => hgrounded x .refl hcycle
    obtain ⟨fault, hf⟩ := Option.ne_none_iff_exists'.1 hfault
    rcases fault_route ht hf with ⟨n, hn, hmissing⟩ | ⟨path, rfl, -⟩
    · obtain ⟨cell, hcell⟩ := hfound n ((Topology.reaches_iff hm).1 hn)
      cases hcell.symm.trans hmissing
    · exact .inl ⟨path, by simp [Route.ends, hf]⟩

/-- A pass, whatever the links, the followers and the hooks are. Its visits, which nothing bounds,
come to an end, and that is the one it goes by; so the pass comes to an end as well. Whether that is
a fault or not, it has carried out visits in turn, no name twice and each after those of its
targets, and has called for each the hooks of what was found, once at most. No run of it, to the end
or not, builds or destroys a component on a cycle of links or with such a one among what its links
lead to. And if the followers are those with a link, a pass that is connected with a cycle, misses
no component and aborts no build ends in a cycle. -/
theorem spread_keeps_off_cycles (op : Operation) (start : String) (token : Token)
    (ht : t.Complete) (hothers : ∀ u v, others u v → World.KeepsCells (fun _ => False) u v) :
    (∀ p, Visits t op false {} (start, token) p ↔ p = destination t op start token) ∧
    Yields others (spread t op start token) w (fun calls r _ =>
      ∃ ran, Proceeds others t op start token w ran calls r) ∧
    (∀ calls q v, Runs others (spread t op start token) w calls q v →
      ∀ call ∈ calls, IsOffCycles t op start call.1) ∧
    (t.Mirrored → (∀ n, t.Connected op start n → ∃ cell, t.find n = .ok cell) →
      ∀ x, t.Connected op start x → Relation.TransGen (t.Ties op) x x →
        Yields others (spread t op start token) w fun _ r _ =>
          (∃ path, r = .error (.linkCycle path)) ∨ IsAbort op r) := by
  have hmeets : Meets (keeping fun what _ => IsOffCycles t op start what)
      (spread t op start token) (fun _ _ _ => True) w := meets_spread_offCycles ht token
  have hyields := hmeets.yields hothers fun h => h
  refine ⟨fun p => visits_start_iff ht, ?_, ?_, ?_⟩
  · intro calls q v run
    refine ⟨(hyields calls q v run).1, ?_⟩
    rintro r rfl
    exact exists_proceeds ht hothers run
  · exact fun calls q v run => ((run.weaken hothers).meets hmeets).2.1
  · intro hm hfound x hx hcycle calls q v run
    refine ⟨(hyields calls q v run).1, ?_⟩
    rintro r rfl
    obtain ⟨ran, hproceeds⟩ := exists_proceeds ht hothers run
    exact hproceeds.of_cycle ht hm hothers hfound hx hcycle

/-- A store and a cache with links onto each other, and an interface with a link onto the cache. -/
def lasso : Topology CellId :=
  .ofLinks ["store", "cache", "api"]
    [("cache", { target := "store" }), ("store", { target := "cache" }),
      ("api", { target := "cache" })] triangle.find

theorem spread_keeps_off_cycles_lasso :
    (∀ p, Visits lasso .build false {} ("api", .admin) p ↔
      p = destination lasso .build "api" .admin) ∧
    Yields (World.KeepsCells fun _ => False) (spread lasso .build "api" .admin) triangleWorld
      (fun calls r _ => ∃ ran, Proceeds (World.KeepsCells fun _ => False) lasso .build "api" .admin
        triangleWorld ran calls r) ∧
    (∀ calls q v,
      Runs (World.KeepsCells fun _ => False) (spread lasso .build "api" .admin) triangleWorld
        calls q v → ∀ call ∈ calls, IsOffCycles lasso .build "api" call.1) ∧
    Yields (World.KeepsCells fun _ => False) (spread lasso .build "api" .admin) triangleWorld
      (fun _ r _ => (∃ path, r = .error (.linkCycle path)) ∨ IsAbort .build r) ∧
    (route lasso .build "api" .admin).fault =
      some (.linkCycle ["api", "cache", "store", "cache"]) := by
  have hcomplete : lasso.Complete := Topology.complete_ofLinks (by decide)
  have hmirrored : lasso.Mirrored := Topology.mirrored_ofLinks _ _ _
  have hapi : lasso.Ties .build "api" "cache" := ⟨{ target := "cache" }, by decide, rfl, rfl⟩
  have hcache : lasso.Ties .build "cache" "store" := ⟨{ target := "store" }, by decide, rfl, rfl⟩
  have hstore : lasso.Ties .build "store" "cache" := ⟨{ target := "cache" }, by decide, rfl, rfl⟩
  have hfound : ∀ n, lasso.Connected .build "api" n → ∃ cell, lasso.find n = .ok cell := by
    intro n hn
    have hmem : n ∈ lasso.names := hn.mem_names hcomplete (by decide)
    obtain ⟨cell, hcell, -⟩ := houses_triangleWorld hmem
    exact ⟨cell, hcell⟩
  obtain ⟨hwalk, hends, hcalls, hcycle⟩ :=
    spread_keeps_off_cycles (w := triangleWorld) .build "api" .admin hcomplete fun _ _ h => h
  refine ⟨hwalk, hends, hcalls, ?_, rfl⟩
  exact hcycle hmirrored hfound "cache" (.single (.inl hapi)) (.tail (.single hcache) hstore)

end Steward.Link
