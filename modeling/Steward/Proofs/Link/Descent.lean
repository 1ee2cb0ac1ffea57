import Steward.Proofs.Link.Route
/-!
The visits of a pass as they call each other, without a bound on how deep they go. A visit goes down
to targets and up to followers, and both may lead back, so nothing that is handed on gets smaller.
What does is the number of names that are neither done nor pending, and those that are pending when
a visit goes on are pending again when it comes back. So a visit comes to an end, whatever the links
and the followers are.
-/
namespace Steward.Link

variable {ρ : Type}

def targetsOf (t : Topology ρ) (op : Operation) (name : String) : List (String × Token) :=
  (t.links name).filter op.follows |>.map fun l => (l.target, l.token)

def followersOf (t : Topology ρ) (op : Operation) (name : String) : List (String × Token) :=
  (t.followers name).filter (fun f => op.follows f.2) |>.map fun f => (f.1, f.2.token)

mutual

/-- A visit comes to an end, and how far the pass has come then. -/
inductive Visits (t : Topology ρ) (op : Operation) :
    Bool → Progress ρ → String × Token → Progress ρ → Prop
  | done {asFollower : Bool} {p : Progress ρ} {name : String} {token : Token}
      (h : name ∈ p.done) : Visits t op asFollower p (name, token) p
  | waiting {p : Progress ρ} {name : String} {token : Token} (undone : name ∉ p.done)
      (h : name ∈ p.pending) : Visits t op true p (name, token) p
  | cycle {p : Progress ρ} {name : String} {token : Token} (undone : name ∉ p.done)
      (h : name ∈ p.pending) :
      Visits t op false p (name, token) (p.fail (.linkCycle (p.pending ++ [name])))
  | stopped {asFollower : Bool} {p q : Progress ρ} {name : String} {token : Token}
      (unbegun : name ∉ p.begun)
      (down : VisitsEach t op false (p.enter name) (targetsOf t op name) q)
      (h : q.fault.isSome = true) : Visits t op asFollower p (name, token) q
  | missing {asFollower : Bool} {p q : Progress ρ} {name : String} {token : Token} {fault : Fault}
      (unbegun : name ∉ p.begun)
      (down : VisitsEach t op false (p.enter name) (targetsOf t op name) q)
      (fine : q.fault = none) (h : t.find name = .error fault) :
      Visits t op asFollower p (name, token) (q.fail fault)
  | whole {asFollower : Bool} {p q r : Progress ρ} {name : String} {token : Token} {found : ρ}
      (unbegun : name ∉ p.begun)
      (down : VisitsEach t op false (p.enter name) (targetsOf t op name) q)
      (fine : q.fault = none) (h : t.find name = .ok found)
      (up : VisitsEach t op true (q.finish ⟨name, found, token⟩) (followersOf t op name) r) :
      Visits t op asFollower p (name, token) r

inductive VisitsEach (t : Topology ρ) (op : Operation) :
    Bool → Progress ρ → List (String × Token) → Progress ρ → Prop
  | nil {asFollower : Bool} {p : Progress ρ} : VisitsEach t op asFollower p [] p
  | stopped {asFollower : Bool} {p : Progress ρ} {as : List (String × Token)}
      (h : p.fault.isSome = true) : VisitsEach t op asFollower p as p
  | cons {asFollower : Bool} {p q r : Progress ρ} {a : String × Token}
      {as : List (String × Token)} (fine : p.fault = none) (first : Visits t op asFollower p a q)
      (rest : VisitsEach t op asFollower q as r) : VisitsEach t op asFollower p (a :: as) r

end

variable {t : Topology ρ} {op : Operation} {start : String} {token : Token}

/-- If each visit ends that the walk makes where something holds, and if that holds again then, all
of them end one after the other. -/
theorem visitsEach_forEach {I : Progress ρ → Prop} {asFollower : Bool}
    {go : Progress ρ → String × Token → Progress ρ} {as : List (String × Token)} {p : Progress ρ}
    (hgo : ∀ q, ∀ a ∈ as, I q → q.fault = none → Visits t op asFollower q a (go q a) ∧ I (go q a))
    (hp : I p) : VisitsEach t op asFollower p as (p.forEach go as) := by
  induction as generalizing p with
  | nil => exact .nil
  | cons a as ih =>
    rcases hf : p.fault with _ | fault
    · obtain ⟨hvisit, hnext⟩ := hgo p a (by simp) hp hf
      rw [Progress.forEach_cons, hf]
      exact .cons hf hvisit (ih (fun q b hb => hgo q b (by simp [hb])) hnext)
    · have hsome : p.fault.isSome = true := by simp [hf]
      rw [Progress.forEach_of_fault hsome]
      exact .stopped hsome

/-- A visit that may nest deeper than there are fresh names does what one without a bound does. The
induction is on that bound: entering a component uses up a name. -/
theorem visits_visit (ht : t.Complete) {depth : Nat} {p : Progress ρ} {asFollower : Bool}
    {name : String} {used : Token} (h : Visitable t op start token p asFollower name used)
    (hdepth : (fresh t start p).length < depth) :
    Visits t op asFollower p (name, used) (visit t op depth asFollower p (name, used)) := by
  induction depth generalizing p asFollower name used with
  | zero => exact absurd hdepth (Nat.not_lt_zero _)
  | succ depth ih =>
    by_cases hname : name ∈ p.begun
    · by_cases hdone : name ∈ p.done
      · rw [visit_of_mem_done hdone]
        exact .done hdone
      · have hpending : name ∈ p.pending := (Progress.mem_begun.1 hname).resolve_left hdone
        rw [visit_of_mem_pending hdone hpending]
        cases asFollower with
        | true => exact .waiting hdone hpending
        | false => exact .cycle hdone hpending
    · rw [visit_of_not_mem hname]
      obtain ⟨hext, htargets⟩ := (walks ht depth).targets ht h hname hdepth
      have hdown : VisitsEach t op false (p.enter name) (targetsOf t op name)
          (throughTargets t op depth p name) := by
        refine visitsEach_forEach (I := Extends t op start token (p.enter name)) ?_
          (.refl (h.sound_enter hname) h.fine)
        intro q a ha hq hf
        obtain ⟨hvisitable, hless⟩ := h.each_target ht hname hdepth ha hq hf
        exact ⟨ih hvisitable hless, hq.trans hf (walks ht depth hvisitable hless).1⟩
      dsimp only
      rcases hq : (throughTargets t op depth p name).fault with _ | fault
      · rw [if_neg (by simp)]
        rcases hfound : t.find name with fault | found
        · exact .missing hname hdown hq hfound
        · have hsound := h.sound_finish hname hext hq hfound (htargets hq)
          refine .whole hname hdown hq hfound (visitsEach_forEach
            (I := Extends t op start token _) ?_ (.refl hsound hq))
          intro r a ha hr hf
          obtain ⟨hvisitable, hless⟩ := h.each_follower ht hname hdepth hext hq ha hr hf
          exact ⟨ih hvisitable hless, hr.trans hf (walks ht depth hvisitable hless).1⟩
      · rw [if_pos (by simp)]
        exact .stopped hname hdown (by simp [hq])

/-- What ends without a bound is what a visit does with any bound that is large enough. The cases
are those of the two kinds of ends, which need each other. -/
theorem Visits.exists_depth {asFollower : Bool} {p q : Progress ρ} {a : String × Token}
    (h : Visits t op asFollower p a q) :
    ∃ least, ∀ depth, least ≤ depth → visit t op depth asFollower p a = q := by
  refine @Visits.rec ρ t op
    (fun asFollower p a q _ => ∃ least, ∀ depth, least ≤ depth → visit t op depth asFollower p a = q)
    (fun asFollower p as q _ =>
      ∃ least, ∀ depth, least ≤ depth → p.forEach (visit t op depth asFollower) as = q)
    ?done ?waiting ?cycle ?stopped ?missing ?whole ?nil ?stoppedEach ?cons asFollower p a q h
  case done =>
    intro asFollower p name token h
    refine ⟨1, fun depth hdepth => ?_⟩
    obtain ⟨depth, rfl⟩ := Nat.exists_eq_add_of_le' hdepth
    exact visit_of_mem_done h
  case waiting =>
    intro p name token undone h
    refine ⟨1, fun depth hdepth => ?_⟩
    obtain ⟨depth, rfl⟩ := Nat.exists_eq_add_of_le' hdepth
    exact visit_of_mem_pending undone h
  case cycle =>
    intro p name token undone h
    refine ⟨1, fun depth hdepth => ?_⟩
    obtain ⟨depth, rfl⟩ := Nat.exists_eq_add_of_le' hdepth
    exact visit_of_mem_pending undone h
  case stopped =>
    rintro asFollower p q name token unbegun - h ⟨least, hdown⟩
    refine ⟨least + 1, fun depth hdepth => ?_⟩
    obtain ⟨depth, rfl⟩ := Nat.exists_eq_add_of_le' (Nat.one_le_of_lt hdepth)
    have hq : throughTargets t op depth p name = q := hdown depth (by omega)
    simp only [visit_of_not_mem unbegun, hq, h, if_true]
  case missing =>
    rintro asFollower p q name token fault unbegun - fine h ⟨least, hdown⟩
    refine ⟨least + 1, fun depth hdepth => ?_⟩
    obtain ⟨depth, rfl⟩ := Nat.exists_eq_add_of_le' (Nat.one_le_of_lt hdepth)
    have hq : throughTargets t op depth p name = q := hdown depth (by omega)
    simp [visit_of_not_mem unbegun, hq, fine, h]
  case whole =>
    rintro asFollower p q r name token found unbegun - fine h - ⟨least, hdown⟩ ⟨least', hup⟩
    refine ⟨max least least' + 1, fun depth hdepth => ?_⟩
    obtain ⟨depth, rfl⟩ := Nat.exists_eq_add_of_le' (Nat.one_le_of_lt hdepth)
    have hq : throughTargets t op depth p name = q := hdown depth (by omega)
    have hr : throughFollowers t op depth (q.finish ⟨name, found, token⟩) name = r :=
      hup depth (by omega)
    simp [visit_of_not_mem unbegun, hq, fine, h, hr]
  case nil => exact ⟨0, fun _ _ => rfl⟩
  case stoppedEach => exact fun h => ⟨0, fun _ _ => Progress.forEach_of_fault h⟩
  case cons =>
    rintro asFollower p q r a as fine - - ⟨least, hfirst⟩ ⟨least', hrest⟩
    refine ⟨max least least', fun depth hdepth => ?_⟩
    obtain ⟨hle, hle'⟩ := Nat.max_le.1 hdepth
    rw [Progress.forEach_cons, fine, hfirst depth hle]
    exact hrest depth hle'

theorem Visits.unique {asFollower : Bool} {p q r : Progress ρ} {a : String × Token}
    (hq : Visits t op asFollower p a q) (hr : Visits t op asFollower p a r) : q = r := by
  obtain ⟨least, hleast⟩ := hq.exists_depth
  obtain ⟨least', hleast'⟩ := hr.exists_depth
  rw [← hleast _ (Nat.le_max_left least least'), ← hleast' _ (Nat.le_max_right least least')]

theorem visits_start_iff (ht : t.Complete) {p : Progress ρ} :
    Visits t op false {} (start, token) p ↔ p = destination t op start token := by
  have hends : Visits t op false {} (start, token) (destination t op start token) :=
    visits_visit ht visitable_start length_fresh_nothing_lt
  constructor
  · exact fun h => h.unique hends
  · rintro rfl
    exact hends

/-- If every visit stands after those of all targets, only grounded components are visited. -/
theorem TargetsFirst.grounded {visits : List (Visit ρ)} (h : TargetsFirst t op visits) :
    ∀ v ∈ visits, t.Grounded op v.name := by
  refine h.forall_mem fun before v _ hties hbefore => .of_targets fun b hb => ?_
  obtain ⟨u, hu, rfl⟩ := List.mem_map.1 (hties b hb)
  exact hbefore u hu

structure Orderly (t : Topology ρ) (op : Operation) (start : String)
    (visits : List (Visit ρ)) : Prop where
  nodup : (visits.map (·.name)).Nodup
  targetsFirst : TargetsFirst t op visits
  found : ∀ v ∈ visits, t.Reaches op start v.name ∧ t.find v.name = .ok v.found
  grounded : ∀ v ∈ visits, t.Grounded op v.name

theorem orderly_route (ht : t.Complete) : Orderly t op start (route t op start token).visits := by
  obtain ⟨hext, -⟩ := extends_destination ht op start token
  exact
    { nodup := (List.nodup_append.1 hext.sound.nodup).1
      targetsFirst := hext.sound.targetsFirst
      found := fun _ hv => found_of_mem_route ht hv
      grounded := hext.sound.targetsFirst.grounded }

theorem Orderly.of_isPrefix {visits ran : List (Visit ρ)} (h : Orderly t op start visits)
    (hran : ran <+: visits) : Orderly t op start ran := by
  obtain ⟨rest, rfl⟩ := hran
  refine ⟨?_, h.targetsFirst.of_append, ?_, ?_⟩
  · have hnodup := h.nodup
    rw [List.map_append] at hnodup
    exact (List.nodup_append.1 hnodup).1
  · exact fun v hv => h.found v (List.mem_append_left _ hv)
  · exact fun v hv => h.grounded v (List.mem_append_left _ hv)

/-- A route that is to visit a component that is not grounded cannot come to its end. If the
followers of a component are those with a link onto it, it need only be connected. -/
theorem fault_route_of_not_grounded (ht : t.Complete) {x : String} (hx : t.Reaches op start x)
    (hcycle : ¬ t.Grounded op x) : (route t op start token).fault ≠ none := by
  intro hf
  have hcovers := covers_route ht hf
  obtain ⟨v, hv, rfl⟩ := List.mem_map.1 ((hcovers.mem_iff x).2 hx)
  exact hcycle (hcovers.targetsFirst.grounded v hv)

end Steward.Link
