import Steward.Link.Propagation
import Steward.Proofs.Cell.Settling
import Steward.Proofs.Link.Route
import Steward.Rehearsal.Kit
/-!
What a pass does to components. It builds or destroys only what its start is connected with. If it
comes to its end, it has been to all of that, once each and targets first; and it comes to its end
unless a build aborts, a component is not found, or there is a way round.
-/
namespace Steward.Link

open Steward.Action

variable {K : Kit}

def Visit.invocation (op : Operation) (v : Visit CellId) : Invocation :=
  match op with
  | .build => .build v.found v.token
  | .destroy => .destroy v.found

def Visit.Answers (op : Operation) (v : Visit CellId) : Except Fault (List Report) → Prop
  | .ok reports =>
    reports.map (fun r => (r.component, r.token)) =
      match op with
      | .build => [(v.name, v.token)]
      | .destroy => []
  | .error fault => op = .build ∧ ∃ message, fault = .buildAborted v.name message

section Visits

variable {T : Terms K} {w : World K} {op : Operation}

theorem meets_visit_of (hT : Hosts T fun _ => False) (v : Visit CellId)
    (hmay : ∀ u, T.may (v.invocation op) u) :
    Meets T (v.run op) (fun calls r _ =>
      (Cell.CallsOf (v.invocation op) v.found w (ofMembers calls) ∨
          op = .destroy ∧ ofMembers calls = []) ∧
        ∃ name, (∀ n, w.Houses v.found n → name = n) ∧ Visit.Answers op { v with name } r) w := by
  refine Meets.report fun u hu => ⟨hT.own (World.keeps_report u _), ?_⟩
  have hkeeps := (hT.cells (T.own_of_others hu)).trans
    (World.keeps_report u (.propagating v.name op.name v.token)).cells
  cases op with
  | build =>
    refine Meets.seq (Cell.meets_build hT v.token fun x _ => hmay x) fun before r x _ hr => ?_
    obtain ⟨hcalls, n, hanswer, hname⟩ := hr
    refine Meets.pure fun _ _ => ⟨.inl (by rw [List.append_nil]; exact hcalls.of_keeps hkeeps), n,
      fun m hm => hname m (hkeeps.houses hm), ?_⟩
    rcases r with fault | report
    · obtain ⟨report, -, -, -, hfault⟩ := hanswer.of_error
      exact ⟨rfl, _, hfault⟩
    · obtain ⟨hname, htoken, -⟩ := hanswer.of_ok
      exact congrArg (fun key => [key]) (Prod.ext hname htoken)
  | destroy =>
    refine Meets.seq (Cell.meets_destroy hT False.elim fun x _ => hmay x) fun before _ x _ hr => ?_
    refine Meets.pure fun _ _ => ⟨?_, _, fun n hn => hn.name_eq, rfl⟩
    rw [List.append_nil]
    exact hr.1.imp (fun hcalls => hcalls.of_keeps hkeeps) fun hcalls => ⟨rfl, hcalls⟩

theorem meets_visit (hT : Hosts T fun _ => False) {v : Visit CellId} (hv : w.Houses v.found v.name)
    (hmay : ∀ u, T.may (v.invocation op) u) :
    Meets T (v.run op) (fun calls r _ =>
      (ofMembers calls = [v.invocation op] ∨ op = .destroy ∧ ofMembers calls = []) ∧
        v.Answers op r) w := by
  refine (meets_visit_of hT v hmay).mono fun calls r _ ⟨hcalls, name, hname, hanswers⟩ => ?_
  obtain rfl := hname v.name hv
  exact ⟨hcalls.imp_left fun hcalls => hcalls.of_houses hv, hanswers⟩

structure Ran (op : Operation) (visits : List (Visit CellId)) (before : Propagation)
    (calls : Calls K) (r : Except Fault Propagation) : Prop where
  sublist : (ofMembers calls).Sublist (visits.map (·.invocation op))
  ok : ∀ p, r = .ok p → p.visited = before.visited ++ visits.map (·.name) ∧
    p.reports.map (fun r => (r.component, r.token)) =
      before.reports.map (fun r => (r.component, r.token)) ++
        match op with
        | .build => visits.map fun v => (v.name, v.token)
        | .destroy => []
  all : op = .build → ∀ p, r = .ok p → ofMembers calls = visits.map (·.invocation op)
  error : ∀ fault, r = .error fault →
    op = .build ∧ ∃ v ∈ visits, ∃ message, fault = .buildAborted v.name message

theorem meets_runVisits (hT : Hosts T fun _ => False) {visits : List (Visit CellId)}
    (hvisits : ∀ v ∈ visits, w.Houses v.found v.name)
    (hmay : ∀ v ∈ visits, ∀ u, T.may (v.invocation op) u) (before : Propagation) :
    Meets T (runVisits op visits before) (fun calls r _ => Ran op visits before calls r) w := by
  induction visits generalizing before w with
  | nil =>
    refine Meets.pure fun _ _ => ⟨by simp, ?_, fun _ _ _ => rfl, fun _ h => by cases h⟩
    rintro p ⟨rfl⟩
    cases op <;> simp
  | cons v visits ih =>
    obtain ⟨hv, hrest⟩ := List.forall_mem_cons.1 hvisits
    obtain ⟨hmayv, hmayrest⟩ := List.forall_mem_cons.1 hmay
    refine Meets.seq (meets_visit hT hv hmayv) fun first r u hu hr => ?_
    obtain ⟨hfirst, hr⟩ := hr
    have hsub : (ofMembers first).Sublist [v.invocation op] := by
      rcases hfirst with h | ⟨-, h⟩ <;> simp [h]
    rcases r with fault | reports
    · refine Meets.pure fun _ _ => ⟨?_, fun _ h => (by cases h), fun _ _ h => (by cases h), ?_⟩
      · rw [List.append_nil]
        exact hsub.trans (by simp)
      · rintro _ ⟨rfl⟩
        exact ⟨hr.1, v, by simp, hr.2⟩
    · refine (ih (fun v hv => (hT.cells hu).houses (hrest v hv)) hmayrest _).mono ?_
      intro later r _ hran
      refine ⟨?_, fun p hp => ?_, fun hop p hp => ?_, fun fault hfault => ?_⟩
      · rw [ofMembers_append, List.map_cons, ← List.singleton_append]
        exact hsub.append hran.sublist
      · obtain ⟨hvisited, hreports⟩ := hran.ok p hp
        have hr' : reports.map (fun r => (r.component, r.token)) = _ := hr
        rw [hvisited, hreports, List.map_append, hr']
        cases op <;> simp
      · subst hop
        have hfirst' : ofMembers first = [v.invocation .build] := by simpa using hfirst
        rw [ofMembers_append, hfirst', hran.all rfl p hp]
        rfl
      · obtain ⟨hop, u, hu, hmessage⟩ := hran.error fault hfault
        exact ⟨hop, u, by simp [hu], hmessage⟩

end Visits

variable {t : Topology CellId} {op : Operation} {start : String} {token : Token}
  {others : World K → World K → Prop} {w : World K}

/-- What is found of the components that a pass may come to stands in the cells. -/
def IsHoused (t : Topology CellId) (op : Operation) (start : String) (w : World K) : Prop :=
  ∀ n cell, t.Connected op start n → t.find n = .ok cell → w.Houses cell n

/-- A call that builds or destroys a component concerns one that the start is connected with. -/
def IsInReach (t : Topology CellId) (op : Operation) (start : String) (what : Invocation) : Prop :=
  ∀ cell, (what = .destroy cell ∨ ∃ token, what = .build cell token) →
    ∃ n, t.Connected op start n ∧ t.find n = .ok cell

theorem not_member_of_mini {what : Invocation} {cell : CellId} (h : what.isOfMini = true) :
    ¬ (what = .destroy cell ∨ ∃ token, what = .build cell token) := by
  rintro (rfl | ⟨token, rfl⟩) <;> cases h

theorem isInReach_of_mini {what : Invocation} (h : what.isOfMini = true) :
    IsInReach t op start what := fun _ hcell => absurd hcell (not_member_of_mini h)

theorem Visit.found_of_invocation {v : Visit CellId} {cell : CellId}
    (h : v.invocation op = .destroy cell ∨ ∃ token, v.invocation op = .build cell token) :
    v.found = cell := by
  cases op <;> simp_all [Visit.invocation]

/-- How a pass ends whose visits ended in a certain way. -/
def Route.ends {ρ : Type} (r : Route ρ) : Except Fault Propagation → Except Fault Propagation
  | .ok p => match r.fault with
    | none => .ok p
    | some fault => .error fault
  | .error fault => .error fault

theorem Route.run_eq (op : Operation) (r : Route CellId) :
    (r.run op : Action K (Except Fault Propagation)) =
      (runVisits op r.visits {}).bind fun s => .done (r.ends s) := by
  refine congrArg (runVisits op r.visits {}).bind (funext fun s => ?_)
  rcases s with fault | p
  · rfl
  · rcases hf : r.fault with _ | fault <;> simp [ends, hf]

theorem meets_spread (ht : t.Complete) (hm : t.Mirrored) (hw : IsHoused t op start w)
    (token : Token) :
    Meets (keeping fun what _ => IsInReach t op start what) (spread t op start token)
      (fun calls r _ => ∃ s, Ran op (route t op start token).visits {} calls s ∧
        r = (route t op start token).ends s) w := by
  have hvisits : ∀ v ∈ (route t op start token).visits,
      t.Connected op start v.name ∧ t.find v.name = .ok v.found := fun v hv =>
    ⟨(Topology.reaches_iff hm).1 (found_of_mem_route ht hv).1, (found_of_mem_route ht hv).2⟩
  rw [spread, Route.run_eq]
  refine Meets.seq (meets_runVisits (hosts_keeping fun _ _ => isInReach_of_mini) ?_
    ?_ {}) fun before s v _ hran => ?_
  · exact fun v hv => hw v.name v.found (hvisits v hv).1 (hvisits v hv).2
  · intro v hv _ cell hcell
    obtain rfl := Visit.found_of_invocation hcell
    exact ⟨v.name, hvisits v hv⟩
  · refine Meets.pure fun _ _ => ⟨s, ?_, rfl⟩
    rwa [List.append_nil]

def idleCell (name : String) : Cell Rehearsal.kit where
  name := name
  inner := .service (.unfinished name)

/-- A world with cells for the components of the triangle. -/
def triangleWorld : World Rehearsal.kit where
  cells := #[idleCell "store", idleCell "cache", idleCell "api"]

theorem houses_triangleWorld {n : String} (h : n ∈ triangle.names) :
    ∃ cell, triangle.find n = .ok cell ∧ triangleWorld.Houses cell n := by
  have hmem : n ∈ ["store", "cache", "api"] := h
  simp only [List.mem_cons, List.not_mem_nil, or_false] at hmem
  rcases hmem with rfl | rfl | rfl
  · exact ⟨0, rfl, idleCell "store", rfl, rfl, rfl⟩
  · exact ⟨1, rfl, idleCell "cache", rfl, rfl, rfl⟩
  · exact ⟨2, rfl, idleCell "api", rfl, rfl, rfl⟩

theorem isHoused_triangleWorld {start : String} (h : start ∈ triangle.names) :
    IsHoused triangle op start triangleWorld := by
  intro n cell hn hcell
  obtain ⟨cell', hcell', hhouses⟩ := houses_triangleWorld (hn.mem_names complete_triangle h)
  obtain rfl : cell' = cell := by simpa [hcell] using hcell'.symm
  exact hhouses

theorem exists_runs_visits {calls : Calls K} {r : Except Fault Propagation} {x : World K}
    (run : Runs others (spread t op start token) w calls (.done r) x) :
    ∃ s u, r = (route t op start token).ends s ∧
      Runs others (runVisits op (route t op start token).visits {}) w calls (.done s) u ∧
      Runs others (.done r : Action K (Except Fault Propagation)) u [] (.done r) x := by
  rw [spread, Route.run_eq] at run
  obtain ⟨before, s, u, later, rfl, hvisits, hlast⟩ := run.split
  obtain ⟨rfl, hr⟩ := hlast.of_done
  obtain rfl := Program.done.inj hr
  rw [List.append_nil]
  exact ⟨s, u, rfl, hvisits, hlast⟩

/-- Visits tear components down one after the other. Each tells first whom it has come to and by
which token, and then the component is torn down. -/
inductive RazesInTurn (others : World K → World K → Prop) :
    World K → List (Visit CellId) → Calls K → Prop
  | none {w : World K} : RazesInTurn others w [] []
  | next {u v w : World K} {x : Visit CellId} {xs : List (Visit CellId)} {first later : Calls K}
      {left : Action K (Except Fault (List Report))}
      (tells : Runs others (x.run .destroy) u [] left
        (v.report (.propagating x.name Operation.destroy.name x.token)))
      (razes : Cell.Razes others x.found left
        (v.report (.propagating x.name Operation.destroy.name x.token)) first (.done (.ok [])) w)
      (rest : RazesInTurn others w xs later) : RazesInTurn others u (x :: xs) (first ++ later)

theorem razesInTurn_of_runs {visits : List (Visit CellId)} {before p : Propagation}
    {calls : Calls K} {x : World K}
    (hothers : ∀ u v, others u v → World.KeepsCells (fun _ => False) u v)
    (hvisits : ∀ v ∈ visits, w.Houses v.found v.name)
    (run : Runs others (runVisits .destroy visits before) w calls (.done (.ok p)) x) :
    RazesInTurn others w visits calls := by
  induction visits generalizing before w calls with
  | nil =>
    obtain ⟨rfl, -⟩ := run.of_done
    exact .none
  | cons v visits ih =>
    obtain ⟨hv, hrest⟩ := List.forall_mem_cons.1 hvisits
    obtain ⟨first, answer, y, later, rfl, hfirst, hlater⟩ := run.split
    have hkeeps {q : Action K (Except Fault (List Report))} {calls : Calls K} {u : World K}
        (run : Runs others (v.run .destroy) w calls q u) : World.KeepsCells (fun _ => False) w u :=
      ((run.weaken hothers).meets (meets_visit (T := keeping fun _ _ => True)
        (hosts_keeping fun _ _ _ => trivial) hv fun _ => trivial)).1
    obtain ⟨u, htells, hdestroy⟩ := Runs.of_update hfirst
    replace htells : Runs others (v.run .destroy) w [] _ _ := htells.trans (.update (.here _ _))
    obtain ⟨calls, ⟨⟩, z, none, rfl, hdestroy, hanswer⟩ :=
      Runs.split (p := Cell.destroy v.found) hdestroy
    have hrazes := Cell.razes_destroy hothers ((hkeeps htells).houses hv) hdestroy
    obtain ⟨rfl, hr⟩ := hanswer.of_done
    cases hr
    rw [List.append_nil]
    exact .next htells ((hrazes.bind _).later hanswer)
      (ih (fun n hn => (hkeeps hfirst).houses (hrest n hn)) hlater)

theorem meets_visit_settling {v : Visit CellId} (hv : w.Houses v.found v.name) :
    Meets (Cell.settling fun cell => cell ≠ v.found) (v.run .destroy) (fun calls r x =>
      r = .ok [] ∧ x.isTornDown v.found = true ∧
        ofMembers calls = if w.isTornDown v.found then [] else [.destroy v.found]) w := by
  refine Meets.report fun u (hu : World.Settles (fun _ => True) w u) =>
    ⟨World.settles_report u _, ?_⟩
  have hreport := hu.trans
    (World.settles_report u (.propagating v.name Operation.destroy.name v.token))
  refine Meets.seq (Cell.meets_destroy_settling (hreport.cells.houses hv))
    fun before _ x _ ⟨hdown, hbefore⟩ => ?_
  refine Meets.pure fun y hy => ⟨rfl, World.Settles.isTornDown hy _ hdown, ?_⟩
  rw [List.append_nil, hbefore, hreport.isTornDown_eq trivial hv]

theorem meets_runVisits_settling {visits : List (Visit CellId)}
    (hvisits : ∀ v ∈ visits, w.Houses v.found v.name) (hnodup : (visits.map (·.name)).Nodup)
    (before : Propagation) :
    Meets (Cell.settling fun _ => False) (runVisits .destroy visits before)
      (fun calls _ x => Cell.TearsDown (visits.map (·.found)) w calls x) w := by
  induction visits generalizing before w with
  | nil => exact Meets.pure fun _ _ => .nil _ _
  | cons v visits ih =>
    obtain ⟨hv, hrest⟩ := List.forall_mem_cons.1 hvisits
    obtain ⟨hname, hnodup⟩ := List.nodup_cons.1 hnodup
    have hcell : v.found ∉ visits.map (·.found) := by
      intro hmem
      obtain ⟨n, hn, heq⟩ := List.mem_map.1 hmem
      have hsame : n.name = v.name := (hrest n hn).name_eq.symm.trans (heq ▸ hv.name_eq)
      exact hname (List.mem_map.2 ⟨n, hn, hsame⟩)
    have hvisit := Cell.settling_mono (meets_visit_settling hv) fun _ (h : False) => h.elim
    refine Meets.seq hvisit fun first r x _ ⟨hwx, hr, hdown, hfirst⟩ => ?_
    subst hr
    have hstill : ∀ n ∈ visits, x.Houses n.found n.name :=
      fun n hn => hwx.cells.houses (hrest n hn)
    refine (ih hstill hnodup _).own.mono fun later _ y ⟨hxy, hlater⟩ => ?_
    refine .cons hcell (fun i hi => ?_) hwx hdown hfirst hxy hlater
    obtain ⟨n, hn, rfl⟩ := List.mem_map.1 hi
    exact ⟨n.name, hrest n hn⟩

structure Fulfils (others : World K → World K → Prop) (t : Topology CellId) (op : Operation)
    (start : String) (token : Token) (w : World K) (visits : List (Visit CellId)) (calls : Calls K)
    (p : Propagation) (x : World K) : Prop where
  visited : p.visited = visits.map (·.name)
  nodup : p.visited.Nodup
  mem_iff : ∀ n, n ∈ p.visited ↔ t.Connected op start n
  targetsFirst : Prefixwise (fun before n => ∀ b, t.Ties op n b → b ∈ before) p.visited
  found : ∀ v ∈ visits, t.find v.name = .ok v.found
  token : ∀ v ∈ visits, (v.name = start ∧ v.token = token) ∨
    (v.name ≠ start ∧ ∃ b ∈ p.visited, b ≠ v.name ∧ ∃ l : Link, op.follows l = true ∧
      l.token = v.token ∧
        (l ∈ t.links b ∧ l.target = v.name ∨ l ∈ t.links v.name ∧ l.target = b))
  build : op = .build →
    ofMembers calls = visits.map (fun v => .build v.found v.token) ∧
      p.reports.map (fun r => (r.component, r.token)) = visits.map fun v => (v.name, v.token)
  destroy : op = .destroy →
    (ofMembers calls).Sublist (visits.map fun v => .destroy v.found) ∧ p.reports = [] ∧
      RazesInTurn others w visits calls
  /-- Where nobody else builds or tears down, hooks run just where a component is not torn down. -/
  undisturbed : op = .destroy → (∀ u v, others u v → World.Settles (fun _ => True) u v) →
    ofMembers calls = (visits.filter fun v => !w.isTornDown v.found).map
      (fun v => .destroy v.found) ∧ ∀ v ∈ visits, x.isTornDown v.found = true

theorem Covers.fulfils (hm : t.Mirrored) {visits : List (Visit CellId)} {calls : Calls K}
    {p : Propagation} {x : World K} (h : Covers t op start token visits)
    (hran : Ran op visits {} calls (.ok p))
    (hrazes : op = .destroy → RazesInTurn others w visits calls)
    (htears : op = .destroy → (∀ u v, others u v → World.Settles (fun _ => True) u v) →
      Cell.TearsDown (visits.map (·.found)) w calls x) :
    Fulfils others t op start token w visits calls p x := by
  obtain ⟨hvisited, hreports⟩ := hran.ok p rfl
  have hvisited' : p.visited = visits.map (·.name) := by simpa using hvisited
  refine
    { visited := hvisited'
      nodup := hvisited' ▸ h.nodup
      mem_iff := fun n => by rw [hvisited', h.mem_iff, Topology.reaches_iff hm]
      targetsFirst := hvisited' ▸ h.targetsFirst.map (·.name) fun _ _ hbefore => hbefore
      found := h.found
      token := fun v hv => ?_
      build := ?_
      destroy := ?_
      undisturbed := fun hop hsettles => ?_ }
  · rcases h.tokenFits v hv with hstart | ⟨hne, b, hb, hreach, hlink⟩
    · exact .inl hstart
    · refine .inr ⟨hne, b, ?_, hb, ?_⟩
      · rwa [hvisited', h.mem_iff]
      · rcases hlink with ⟨l, hl, hfollows, htarget, htoken⟩ | ⟨f, hf, hfollows, hname, htoken⟩
        · exact ⟨l, hfollows, htoken, .inl ⟨hl, htarget⟩⟩
        · obtain ⟨hl, htarget⟩ := (hm b f).1 hf
          exact ⟨f.2, hfollows, htoken, .inr ⟨hname ▸ hl, htarget⟩⟩
  · rintro rfl
    exact ⟨hran.all rfl p rfl, by simpa using hreports⟩
  · rintro rfl
    exact ⟨hran.sublist, by simpa using hreports, hrazes rfl⟩
  · obtain ⟨hdown, hcalls⟩ := htears hop hsettles
    refine ⟨?_, fun v hv => hdown _ (List.mem_map.2 ⟨v, hv, rfl⟩)⟩
    rw [hcalls, List.filter_map, List.map_map]
    rfl

/-- Whatever others do meanwhile, a pass that comes to its end has visited just what its start is
connected with, and no pass builds or destroys anything else. -/
theorem spread_visits_connected (op : Operation) (start : String) (token : Token)
    (ht : t.Complete) (hm : t.Mirrored) (hw : IsHoused t op start w)
    (hothers : ∀ u v, others u v → World.KeepsCells (fun _ => False) u v) :
    Yields others (spread t op start token) w (fun calls r x =>
      ∀ p, r = .ok p → ∃ visits, Fulfils others t op start token w visits calls p x) ∧
    ∀ calls q v, Runs others (spread t op start token) w calls q v →
      ∀ call ∈ calls, IsInReach t op start call.1 := by
  have hmeets := meets_spread ht hm hw token
  refine ⟨fun calls q x run => ?_, fun calls q v run => ((run.weaken hothers).meets hmeets).2.1⟩
  refine ⟨(hmeets.yields hothers (fun h => h) calls q x run).1, ?_⟩
  rintro _ rfl p rfl
  obtain ⟨s, u, hs, hvisits, hlast⟩ := exists_runs_visits run
  rcases hf : (route t op start token).fault with _ | fault
  · rcases s with fault | p'
    · simp [Route.ends] at hs
    · obtain rfl : p = p' := by simpa [Route.ends, hf] using hs
      have hhouses : ∀ v ∈ (route t op start token).visits, w.Houses v.found v.name :=
        fun v hv => hw v.name v.found ((Topology.reaches_iff hm).1 (found_of_mem_route ht hv).1)
          (found_of_mem_route ht hv).2
      have hran := (hvisits.weaken hothers).ends (meets_runVisits (T := keeping fun _ _ => True)
        (hosts_keeping fun _ _ _ => trivial) hhouses (fun _ _ _ => trivial) {})
      have hcovers := covers_route ht hf
      refine ⟨_, hcovers.fulfils hm hran ?_ ?_⟩
      · rintro rfl
        exact razesInTurn_of_runs hothers hhouses hvisits
      · rintro rfl hsettles
        have htears := (hvisits.weaken hsettles).ends
          (meets_runVisits_settling hhouses hcovers.nodup {})
        exact htears.later
          (Runs.others_of_done (T := Cell.settling fun _ => False) (hlast.weaken hsettles))
  · rcases s with _ | _ <;> simp [Route.ends, hf] at hs

/-- Passes from the store; the second one is among others that neither build nor tear down. -/
theorem spread_visits_connected_store :
    (Yields (World.KeepsCells fun _ => False) (spread triangle .build "store" .admin)
        triangleWorld (fun calls r x => ∀ p, r = .ok p → ∃ visits,
          Fulfils (World.KeepsCells fun _ => False) triangle .build "store" .admin triangleWorld
            visits calls p x) ∧
      ∀ calls q v, Runs (World.KeepsCells fun _ => False) (spread triangle .build "store" .admin)
        triangleWorld calls q v → ∀ call ∈ calls, IsInReach triangle .build "store" call.1) ∧
    (route triangle .build "store" .admin).fault = none ∧
    ∃ calls p x visits,
      Runs (World.Settles fun _ => True) (spread triangle .destroy "store" .admin)
        triangleWorld calls (.done (.ok p)) x ∧
      Fulfils (World.Settles fun _ => True) triangle .destroy "store" .admin triangleWorld
        visits calls p x ∧
      p.visited = ["store", "cache", "api"] ∧
      ofMembers calls = [.destroy 0, .destroy 1, .destroy 2] := by
  have hbuilds := spread_visits_connected .build "store" .admin complete_triangle
    mirrored_triangle (isHoused_triangleWorld (by decide)) fun _ _ h => h
  have hdestroys := spread_visits_connected .destroy "store" .admin complete_triangle
    mirrored_triangle (isHoused_triangleWorld (by decide))
    fun u v (h : World.Settles (fun _ => True) u v) => h.cells.mono fun _ => False.elim
  refine ⟨hbuilds, rfl, ?_⟩
  have halone : (alone (spread triangle .destroy "store" .admin) triangleWorld).map (fun run =>
      (run.2.1.toOption.map (·.visited), ofMembers run.1)) =
        some (some ["store", "cache", "api"], [.destroy 0, .destroy 1, .destroy 2]) := by
    decide +kernel
  obtain ⟨⟨calls, r, x⟩, hrun, hends⟩ := Option.map_eq_some_iff.1 halone
  obtain ⟨hr, hcalls⟩ := Prod.mk.inj hends
  obtain ⟨p, hp, hvisited⟩ := Option.map_eq_some_iff.1 hr
  obtain rfl : r = .ok p := by
    cases r with
    | error fault => cases hp
    | ok q => exact congrArg _ (Option.some.inj hp)
  obtain ⟨visits, hfulfils⟩ := (hdestroys.1 calls _ x (runs_alone hrun)).2 _ rfl p rfl
  exact ⟨calls, p, x, visits, runs_alone hrun, hfulfils, hvisited, hcalls⟩

def IsAbort (op : Operation) (r : Except Fault Propagation) : Prop :=
  op = .build ∧ ∃ name message, r = .error (.buildAborted name message)

theorem spread_ends (ht : t.Complete) (hm : t.Mirrored)
    (hw : ∀ n, t.Connected op start n → ∃ cell, t.find n = .ok cell ∧ w.Houses cell n)
    (hothers : ∀ u v, others u v → World.KeepsCells (fun _ => False) u v) :
    Yields others (spread t op start token) w fun _ r _ =>
      ((∃ p, r = .ok p) ∧ (route t op start token).fault = none) ∨ IsAbort op r ∨
        ∃ path, r = .error (.linkCycle path) ∧ IsWayRound t op path ∧
          ∀ n ∈ path, t.Connected op start n := by
  have hhoused : IsHoused t op start w := by
    intro n cell hn hcell
    obtain ⟨cell', hcell', hhouses⟩ := hw n hn
    obtain rfl : cell' = cell := by simpa [hcell'] using hcell
    exact hhouses
  refine ((meets_spread ht hm hhoused token).yields hothers fun h => h).mono ?_
  rintro calls r - ⟨s, hran, rfl⟩
  rcases s with fault | p
  · obtain ⟨hop, v, -, message, rfl⟩ := hran.error fault rfl
    exact .inr (.inl ⟨hop, v.name, message, rfl⟩)
  · rcases hf : (route t op start token).fault with _ | fault
    · exact .inl ⟨⟨p, by simp [Route.ends, hf]⟩, rfl⟩
    · rcases fault_route ht hf with ⟨n, hn, hmissing⟩ | ⟨path, rfl, hround, hpath⟩
      · obtain ⟨cell, hcell, -⟩ := hw n ((Topology.reaches_iff hm).1 hn)
        rw [hcell] at hmissing
        cases hmissing
      · refine .inr (.inr ⟨path, by simp [Route.ends, hf], hround, fun n hn => ?_⟩)
        exact (Topology.reaches_iff hm).1 (hpath n hn)

/-- When a pass runs into a cycle. If no component that the start is connected with has a detour,
the pass comes to its end, unless a build aborts. A pass that begins with a component with a detour
never does. And what is reported as a cycle is a way round, which leaves a component by a link of
it and comes back by a link onto it, but need not follow the links in between. -/
theorem spread_fails_by_detour (op : Operation) (start : String) (token : Token)
    (ht : t.Complete) (hm : t.Mirrored)
    (hw : ∀ n, t.Connected op start n → ∃ cell, t.find n = .ok cell ∧ w.Houses cell n)
    (hothers : ∀ u v, others u v → World.KeepsCells (fun _ => False) u v) :
    ((∀ x, t.Connected op start x → ¬ t.Detour op x) →
      Yields others (spread t op start token) w fun _ r _ => (∃ p, r = .ok p) ∨ IsAbort op r) ∧
    (∀ x, t.Connected op start x → t.Detour op x → ∀ token,
      Yields others (spread t op x token) w fun _ r _ =>
        (∃ path, r = .error (.linkCycle path)) ∨ IsAbort op r) ∧
    Yields others (spread t op start token) w fun _ r _ =>
      ∀ path, r = .error (.linkCycle path) →
        IsWayRound t op path ∧ ∃ x ∈ path, t.Connected op start x ∧ t.Detour op x := by
  refine ⟨fun hnone => ?_, fun x hx hdetour token => ?_, ?_⟩
  · refine (spread_ends ht hm hw hothers).mono fun _ r _ hr => ?_
    rcases hr with ⟨hok, -⟩ | habort | ⟨path, -, hround, hpath⟩
    · exact .inl hok
    · exact .inr habort
    · obtain ⟨x, hx, hdetour⟩ := hround.exists_detour hm
      exact absurd hdetour (hnone x (hpath x hx))
  · have hw' : ∀ n, t.Connected op x n → ∃ cell, t.find n = .ok cell ∧ w.Houses cell n :=
      fun n hn => hw n (hx.trans hn)
    refine (spread_ends ht hm hw' hothers).mono fun _ r _ hr => ?_
    rcases hr with ⟨-, hfine⟩ | habort | ⟨path, hr, -⟩
    · exact absurd hfine (fault_route_of_detour ht hm hdetour)
    · exact .inr habort
    · exact .inl ⟨path, hr⟩
  · refine (spread_ends ht hm hw hothers).mono fun _ r _ hr path hpath' => ?_
    rcases hr with ⟨⟨p, rfl⟩, -⟩ | ⟨-, name, message, rfl⟩ | ⟨path', rfl, hround, hpath⟩
    · simp at hpath'
    · simp at hpath'
    · obtain rfl : path' = path := by simpa using hpath'
      obtain ⟨x, hx, hdetour⟩ := hround.exists_detour hm
      exact ⟨hround, x, hx, hpath x hx, hdetour⟩

theorem spread_fails_by_detour_pair_triangle :
    (Yields (World.KeepsCells fun _ => False) (spread pair .build "cache" .admin) triangleWorld
      fun _ r _ => (∃ p, r = .ok p) ∨ IsAbort .build r) ∧
    triangle.Detour .destroy "cache" ∧
      Yields (World.KeepsCells fun _ => False) (spread triangle .destroy "cache" .admin)
        triangleWorld fun _ r _ =>
          (∃ path, r = .error (.linkCycle path)) ∨ IsAbort .destroy r := by
  have hpair : ∀ n, pair.Connected .build "cache" n →
      ∃ cell, pair.find n = .ok cell ∧ triangleWorld.Houses cell n := by
    intro n hn
    have hmem : n ∈ pair.names := hn.mem_names complete_pair (by decide)
    exact houses_triangleWorld (List.mem_append_left ["api"] hmem)
  have htriangle := (spread_fails_by_detour .destroy "cache" .admin complete_triangle
    mirrored_triangle
    (fun _ hn => houses_triangleWorld (hn.mem_names complete_triangle (by decide)))
    fun _ _ h => h).2.1
  refine ⟨?_, detour_cache _, htriangle "cache" .refl (detour_cache _) .admin⟩
  exact (spread_fails_by_detour .build "cache" .admin complete_pair mirrored_pair hpair
    fun _ _ h => h).1 fun x _ => not_detour_pair _ x

/-- The links of the triangle close no cycle, all its components are there, and nothing aborts;
still tearing it down from the cache fails, with a cycle that would take a link from the cache onto
the interface. -/
theorem triangle_has_no_cycle_but_fails :
    (triangle.Complete ∧ triangle.Mirrored ∧ triangle.Acyclic .destroy) ∧
      (∀ n ∈ triangle.names, ∃ cell, triangle.find n = .ok cell ∧ triangleWorld.Houses cell n) ∧
      Yields (World.KeepsCells fun _ => False) (spread triangle .destroy "cache" .admin)
        triangleWorld (fun _ r _ => r = .error (.linkCycle ["cache", "api", "cache"])) ∧
      ¬ triangle.Ties .destroy "cache" "api" := by
  refine ⟨⟨complete_triangle, mirrored_triangle, acyclic_triangle _⟩,
    fun _ h => houses_triangleWorld h, ?_, ?_⟩
  · have hhoused : IsHoused triangle .destroy "cache" triangleWorld :=
      isHoused_triangleWorld (by decide)
    refine ((meets_spread complete_triangle mirrored_triangle hhoused .admin).yields
      (fun _ _ h => h) fun h => h).mono ?_
    rintro calls r - ⟨s, hran, rfl⟩
    rcases s with fault | p
    · exact absurd (hran.error fault rfl).1 (by decide)
    · rfl
  · rw [triangle, Topology.ties_ofLinks]
    decide

end Steward.Link
