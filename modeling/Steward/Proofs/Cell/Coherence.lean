import Steward.Proofs.Cell.Exclusion
/-!
What the parts of where a cell stands have to do with one another. Builds, teardowns, assignments
and rotations each write some of the parts, and their hooks may fail or panic; yet whenever nobody
is at work, the phase says what was built, what is destroyed and what is closed, and the report is
that of the last build pass.
-/
namespace Steward

open Steward.Action World

variable {K : Kit}

namespace Cell

/-- A build pass that is through: what its hooks had asked for, how they ended, and its report. -/
structure Pass where
  asked : Scope
  ending : Ending
  report : Report

namespace Pass

/-- The report tells of the hooks, and it is on the component of the cell. -/
def IsSound (name : String) (p : Pass) : Prop :=
  p.asked.component = name ∧
    ∃ elapsedMillis finishedAt, p.report = p.asked.report p.ending elapsedMillis finishedAt

/-- What a build answers after the pass: the report, or the fault of an abort. -/
def answer (name : String) (p : Pass) : Except Fault Report :=
  if p.report.outcome = .abort then .error (.buildAborted name (p.report.message.getD ""))
  else .ok p.report

def deed (p : Pass) : Deed := .built p.asked p.ending

end Pass

def Deed.pass? (report : Report) : Deed → Option Pass
  | .built asked ending => some ⟨asked, ending, report⟩
  | _ => none

def Deed.isBuilt : Deed → Bool
  | .built _ _ => true
  | _ => false

def Operation.token? : Operation → Option Token
  | .build token => some token
  | _ => none

/-- A build that answers its pass besides. -/
def buildPassing (id : CellId) (token : Token) :
    Action K (Option Pass × Except Fault Report) := do
  let started ← get (·.now)
  acquire id .write
  let (done, deed) ← buildHeld pass id token started
  release id
  let answer ← buildAfter id done.1 done.2
  return (deed.pass? done.2, answer)

/-- An operation that answers its build pass, if it is one, with the answer of the build. -/
def Operation.passing (id : CellId) : Operation → Action K (Option (Pass × Except Fault Report))
  | .build token => do
    let (pass?, answer) ← buildPassing id token
    return pass?.map (·, answer)
  | op => do
    op.run id
    return none

/-- Operations one after the other, with all their build passes. -/
def passing (id : CellId) (ops : List Operation) :
    Action K (List (Pass × Except Fault Report)) := do
  let passes ← ops.mapM (·.passing id)
  return passes.reduceOption

variable {id : CellId} {name : String} {isMini : Bool} {s s' : Standing} {passes : List Pass}

theorem map_buildPassing (id : CellId) (token : Token) :
    Prod.snd <$> (buildPassing id token : Action K _) = build id token := by
  rw [build, buildWith_eq]
  simp only [buildPassing, map_bind, map_pure, bind_pure]

theorem map_operation_passing (op : Operation) (id : CellId) :
    (fun _ => ()) <$> (op.passing id : Action K _) = op.run id := by
  cases op with
  | build token =>
    simp only [Operation.passing, Operation.run, ← map_buildPassing, map_eq_pure_bind, bind_assoc,
      pure_bind]
  | _ => simp only [Operation.passing, Operation.run, map_bind, map_pure, bind_pure_unit]

theorem passing_cons (id : CellId) (op : Operation) (ops : List Operation) :
    (passing id (op :: ops) : Action K _) = do
      let pass? ← op.passing id
      let rest ← passing id ops
      return pass?.toList ++ rest := by
  have hcons (pass? : Option (Pass × Except Fault Report)) (rest) :
      (pass? :: rest).reduceOption = pass?.toList ++ rest.reduceOption := by
    cases pass? <;> rfl
  simp only [passing, List.mapM_cons, bind_assoc, pure_bind, hcons]

theorem map_passing (id : CellId) (ops : List Operation) :
    (fun _ => ()) <$> (passing id ops : Action K _) = conduct id ops := by
  induction ops with
  | nil => rfl
  | cons op ops ih =>
    rw [conduct, List.forM_cons, ← map_operation_passing, ← conduct, ← ih, passing_cons]
    simp only [bind_assoc, pure_bind, map_eq_pure_bind]

/-- The parts of where a cell stands agree with one another and with the build passes so far. -/
structure Coheres (passes : List Pass) (s : Standing) : Prop where
  phase : s.phase = .unbuilt ∨ s.phase = .built ∨ s.phase = .destroyed
  destroyed : s.destroyed = true ↔ s.phase = .destroyed
  built : s.built = true ↔
    s.phase = .built ∧ ∃ report, s.lastReport = some report ∧ report.outcome ≠ .abort
  lastReport : s.lastReport = passes.getLast?.map (·.report)
  latest : s.phase = .built → ∃ p, passes.getLast? = some p ∧ s.disabled = p.asked.disabled
  disabled : s.phase ≠ .built → s.disabled = []
  unbuilt : s.phase = .unbuilt → s.lastReport = none

theorem coheres_nil : Coheres [] {} := by
  constructor <;> simp

theorem coheres_endBuild (passes : List Pass) (p : Pass) (s : Standing) :
    Coheres (passes ++ [p]) (s.endBuild p.report p.asked.disabled) := by
  constructor
  · exact .inr (.inl rfl)
  · simp [Standing.endBuild]
  · cases houtcome : p.report.outcome <;> simp [Standing.endBuild, Outcome.isFatal, houtcome]
  · simp [Standing.endBuild]
  · exact fun _ => ⟨p, List.getLast?_concat, rfl⟩
  · exact fun h => absurd rfl h
  · exact fun h => Phase.noConfusion h

theorem Coheres.endDestroy (h : Coheres passes s) : Coheres passes s.beginDestroy.endDestroy := by
  constructor
  · exact .inr (.inr rfl)
  · exact iff_of_true rfl rfl
  · simp [Standing.endDestroy]
  · exact h.lastReport
  · exact fun h => Phase.noConfusion h
  · exact fun _ => rfl
  · exact fun h => Phase.noConfusion h

theorem Coheres.assign (h : Coheres passes s) (status : Status) :
    Coheres passes (s.assign status) :=
  ⟨h.phase, h.destroyed, h.built, h.lastReport, h.latest, h.disabled, h.unbuilt⟩

structure Extends (name : String) (passes : List Pass) (op : Operation) (more : List Pass)
    (s : Standing) : Prop where
  coheres : Coheres (passes ++ more) s
  sound : ∀ p ∈ more, p.IsSound name
  tokens : more.map (·.asked.token) = op.token?.toList

theorem extends_nil {op : Operation} (h : Coheres passes s) (hop : op.token? = none) :
    Extends name passes op [] s where
  coheres := by rwa [List.append_nil]
  sound := by simp
  tokens := by rw [hop]; rfl

theorem Coheres.does {op : Operation} {deed : Deed} (h : Coheres passes s)
    (hdoes : Does name op s deed s') :
    ∃ more, Extends name passes op more s' ∧ more.map Pass.deed = [deed].filter Deed.isBuilt := by
  cases hdoes with
  | @build token s asked ending elapsedMillis finishedAt hname htoken =>
    refine ⟨[⟨asked, ending, asked.report ending elapsedMillis finishedAt⟩],
      ⟨coheres_endBuild passes _ _, ?_, ?_⟩, rfl⟩
    · exact List.forall_mem_singleton.2 ⟨hname, _, _, rfl⟩
    · exact congrArg (fun token => [token]) htoken
  | destroy hstanding => exact ⟨[], extends_nil h.endDestroy rfl, rfl⟩
  | destroyAgain hdestroyed => exact ⟨[], extends_nil h rfl, rfl⟩
  | setStatus s status => exact ⟨[], extends_nil (h.assign status) rfl, rfl⟩
  | rotate status hstanding => exact ⟨[], extends_nil (h.assign status) rfl, rfl⟩
  | idle s => exact ⟨[], extends_nil h rfl, rfl⟩

section Runs

variable {w : World K}

theorem meets_buildAfter (name : String) (report : Report) :
    Meets (working id) (buildAfter id name report) (fun _ answer v => Spares id w v ∧
      answer = if report.outcome = .abort then .error (.buildAborted name (report.message.getD ""))
        else .ok report) w := by
  have hfatal : report.outcome.isFatal = true ↔ report.outcome = .abort := by
    cases report.outcome <;> simp [Outcome.isFatal]
  refine Meets.modify fun x hx => ⟨trivial, ?_⟩
  have harm : Spares id x (armAfter id report x) := spares_of_eq (face?_armAfter report x)
  split
  · rename_i h
    exact Meets.pure fun y hy =>
      ⟨Spares.trans hx (harm.trans hy), (if_pos (hfatal.1 h)).symm⟩
  · rename_i h
    exact Meets.pure fun y hy =>
      ⟨Spares.trans hx (harm.trans hy), (if_neg fun h' => h (hfatal.2 h')).symm⟩

theorem meets_buildPassing (hid : w.face? id = some ⟨name, isMini, s⟩) (token : Token) :
    Meets (working id) (buildPassing id token) (fun _ r v => ∃ p : Pass,
      r = (some p, p.answer name) ∧ p.IsSound name ∧ p.asked.token = token ∧
        v.face? id = some ⟨name, isMini, s.endBuild p.report p.asked.disabled⟩) w := by
  refine Meets.get fun u hu => Meets.acquire ?_
  refine Meets.seq (meets_buildHeld (fun _ _ => minds_pass _) (hu _ hid) token _)
    fun _ r v _ hpassed => ?_
  obtain ⟨asked, ending, elapsedMillis, finishedAt, hname, htoken, rfl, hv⟩ := hpassed
  refine Meets.release (Meets.seq (meets_buildAfter name _) fun _ answer x _ ⟨hx, hanswer⟩ => ?_)
  refine Meets.pure fun y hy => ⟨⟨asked, ending, asked.report ending elapsedMillis finishedAt⟩,
    ?_, ⟨hname, _, _, rfl⟩, htoken, hy _ (hx _ hv)⟩
  rw [hanswer]
  rfl

theorem meets_run (op : Operation) (hid : w.face? id = some ⟨name, isMini, s⟩) :
    Meets (working id) (op.run id) (fun _ _ v => ∃ deed s',
      v.face? id = some ⟨name, isMini, s'⟩ ∧ Does name op s deed s') w := by
  rw [← map_told, map_eq_pure_bind]
  refine Meets.seq (meets_told op hid) fun _ deed v _ ⟨s', hv, hdoes⟩ => ?_
  exact Meets.pure fun x hx => ⟨deed, s', hx _ hv, hdoes⟩

theorem meets_operation_passing (op : Operation) (hid : w.face? id = some ⟨name, isMini, s⟩)
    (h : Coheres passes s) :
    Meets (working id) (op.passing id) (fun _ r v => ∃ s' more,
      v.face? id = some ⟨name, isMini, s'⟩ ∧ Extends name passes op more s' ∧
        r.toList = more.map fun p => (p, p.answer name)) w := by
  have hrest : op.token? = none → Meets (working id) (do
      op.run id
      return none) (fun _ (r : Option (Pass × Except Fault Report)) v => ∃ s' more,
        v.face? id = some ⟨name, isMini, s'⟩ ∧ Extends name passes op more s' ∧
          r.toList = more.map fun p => (p, p.answer name)) w := by
    intro hop
    refine Meets.seq (meets_run op hid) fun _ _ v _ ⟨deed, s', hv, hdoes⟩ => ?_
    obtain ⟨more, hextends, -⟩ := h.does hdoes
    obtain rfl : more = [] := by simpa [hop] using hextends.tokens
    exact Meets.pure fun x hx => ⟨s', [], hx _ hv, hextends, rfl⟩
  cases op with
  | build token =>
    refine Meets.seq (meets_buildPassing hid token) fun _ r v _ hpass => ?_
    obtain ⟨p, rfl, hsound, htoken, hv⟩ := hpass
    refine Meets.pure fun x hx => ⟨_, [p], hx _ hv, ⟨coheres_endBuild passes p s, ?_, ?_⟩, rfl⟩
    · exact List.forall_mem_singleton.2 hsound
    · rw [List.map_singleton, htoken]
      rfl
  | destroy => exact hrest rfl
  | setStatus status => exact hrest rfl
  | rotate => exact hrest rfl

theorem meets_passing (ops : List Operation) (hid : w.face? id = some ⟨name, isMini, s⟩)
    (h : Coheres passes s) :
    Meets (working id) (passing id ops) (fun _ r v => ∃ s' more,
      v.face? id = some ⟨name, isMini, s'⟩ ∧ Coheres (passes ++ more) s' ∧
        (∀ p ∈ more, p.IsSound name) ∧ more.map (·.asked.token) = ops.filterMap Operation.token? ∧
          r = more.map fun p => (p, p.answer name)) w := by
  induction ops generalizing w s passes with
  | nil => exact Meets.pure fun v hv => ⟨s, [], hv _ hid, by simpa using h, by simp, rfl, rfl⟩
  | cons op ops ih =>
    rw [passing_cons]
    refine Meets.seq (meets_operation_passing op hid h) fun _ r v _ ⟨s₁, first, hv, hop, hr⟩ => ?_
    refine Meets.seq (ih hv hop.coheres) fun _ rest u _ hrest => ?_
    obtain ⟨s₂, more, hu, hcoheres, hsound, htokens, rfl⟩ := hrest
    refine Meets.pure fun x hx => ⟨s₂, first ++ more, hx _ hu, ?_, ?_, ?_, ?_⟩
    · rwa [← List.append_assoc]
    · exact List.forall_mem_append.2 ⟨hop.sound, hsound⟩
    · rw [List.map_append, hop.tokens, htokens]
      cases hop : op.token? <;> simp [hop]
    · rw [hr, List.map_append]

end Runs

theorem coheres_of_brings {dids : List (Operation × Deed)} (h : Brings name s dids s')
    (hs : Coheres passes s) :
    ∃ more, Coheres (passes ++ more) s' ∧ (∀ p ∈ more, p.IsSound name) ∧
      more.map Pass.deed = (dids.map (·.2)).filter Deed.isBuilt := by
  induction h generalizing passes with
  | nil s => exact ⟨[], by rwa [List.append_nil], by simp, rfl⟩
  | cons hdoes _ ih =>
    obtain ⟨first, hop, hfirst⟩ := hs.does hdoes
    obtain ⟨more, hcoheres, hsound, hmore⟩ := ih hop.coheres
    refine ⟨first ++ more, by rwa [← List.append_assoc],
      List.forall_mem_append.2 ⟨hop.sound, hsound⟩, ?_⟩
    rw [List.map_append, hfirst, hmore, ← List.filter_append, List.map_cons, List.singleton_append]

variable {ρ : Type} {d : Cell K} {w : World K} {locks : CellId → Lock}
  {others : World K → World K → Prop}

/-- Whatever a crowd has come to, nobody sees the cell but as the passes left it that are done. -/
theorem coheres_of_becomes {crowd : Crowd K Mark} (hd : w.cell? id = some d)
    (hnew : d.standing = {}) (hfree : locks id = .free)
    (hothers : ∀ u v, others u v → Spares id u v) (tasks : Requests K ρ)
    (run : (gatherTelling id tasks w locks).Becomes others crowd)
    (hwriter : (crowd.locks id).allows .read = true) :
    ∃ s passes, crowd.world.face? id = some ⟨d.name, d.isMini, s⟩ ∧ Coheres passes s ∧
      (∀ p ∈ passes, p.IsSound d.name) ∧
      passes.map Pass.deed = ((doings crowd.log).map (·.2)).filter Deed.isBuilt := by
  let P (crowd : Crowd K Mark) := ∃ place scene,
    InOrder ⟨id, d.name, d.isMini⟩ d.standing crowd place scene
  have horder : P crowd :=
    run.induct ⟨_, _, inOrder_gatherTelling hd hfree tasks⟩ fun ⟨_, _, h⟩ step =>
      h.step hothers step
  obtain ⟨place, scene, h⟩ := horder
  obtain ⟨s, callers, rfl, hs⟩ := h.exists_stands hwriter
  have hbrings : Brings d.name {} (doings crowd.log) s := hnew ▸ brings_of_leads h.leads
  obtain ⟨passes, hcoheres, hsound, hdeeds⟩ := coheres_of_brings hbrings coheres_nil
  exact ⟨s, passes, hs, hcoheres, hsound, hdeeds⟩

/-- However a new cell is operated on, and whatever the hooks answer, the parts of where it stands
agree: it is destroyed just in the phase of that name, and built just if it is in phase and the last
build pass did not abort; its report is that of the last build pass, which the build has answered
unless it aborted; what that pass closed is closed while the cell is in phase, and nothing is
otherwise. The same holds of all that a crowd comes to in which nobody holds the lock for
writing. -/
theorem standing_coheres (hd : w.cell? id = some d) (hnew : d.standing = {})
    (hothers : ∀ u v, others u v → Spares id u v) :
    (∀ token, Prod.snd <$> (buildPassing id token : Action K _) = build id token) ∧
    (∀ ops, (fun _ => ()) <$> (passing id ops : Action K _) = conduct id ops ∧
      Yields others (passing id ops) w (fun _ history v => ∃ s passes,
        v.face? id = some ⟨d.name, d.isMini, s⟩ ∧ Coheres passes s ∧
          (∀ p ∈ passes, p.IsSound d.name) ∧
          passes.map (·.asked.token) = ops.filterMap Operation.token? ∧
          history = passes.map fun p => (p, p.answer d.name))) ∧
    ∀ (tasks : Requests K ρ) (locks : CellId → Lock), locks id = .free →
      ∀ quiet, (gather id tasks w locks).Becomes others quiet →
        (quiet.locks id).allows .read = true →
        ∃ crowd s passes, (gatherTelling id tasks w locks).Becomes others crowd ∧
          crowd.mute = quiet ∧ quiet.world.face? id = some ⟨d.name, d.isMini, s⟩ ∧
          Coheres passes s ∧ (∀ p ∈ passes, p.IsSound d.name) ∧
          passes.map Pass.deed = ((doings crowd.log).map (·.2)).filter Deed.isBuilt := by
  have hid : w.face? id = some ⟨d.name, d.isMini, {}⟩ := by rw [face?_of_cell? hd, Cell.face, hnew]
  refine ⟨fun token => map_buildPassing id token, fun ops => ⟨map_passing id ops, ?_⟩, ?_⟩
  · refine ((meets_passing ops hid coheres_nil).yields hothers (fun h => h)).mono ?_
    rintro _ history v ⟨s, passes, hv, hcoheres, hsound, htokens, rfl⟩
    exact ⟨s, passes, hv, hcoheres, hsound, htokens, rfl⟩
  · intro tasks locks hfree quiet run hwriter
    rw [← mute_gatherTelling] at run
    obtain ⟨crowd, hrun, rfl⟩ := Crowd.exists_becomes_of_mute run
    obtain ⟨s, passes, hs, hcoheres⟩ :=
      coheres_of_becomes hd hnew hfree hothers tasks hrun hwriter
    exact ⟨crowd, s, passes, hrun, rfl, hs, hcoheres⟩

/-- The interface is built, torn down twice and built anew, so it has the report of its second
build. -/
theorem standing_coheres_api :
    ∃ calls history v, Runs (Spares 0) (passing 0 rebuilding) { cells := #[api] } calls
        (.done history) v ∧
      history.map (fun entry => entry.1.deed) = rebuilt.filter Deed.isBuilt ∧
      ∃ s passes, v.face? 0 = some ⟨"api", false, s⟩ ∧ Coheres passes s ∧
        history = passes.map fun p => (p, p.answer "api") := by
  have halone : (alone (passing 0 rebuilding) { cells := #[api] }).map
      (fun run => run.2.1.map fun entry => entry.1.deed) =
        some (rebuilt.filter Deed.isBuilt) := by decide +kernel
  obtain ⟨⟨calls, history, v⟩, hrun, hdeeds⟩ := Option.map_eq_some_iff.1 halone
  have hcoheres := (standing_coheres (ρ := Unit) (d := api) (w := { cells := #[api] }) rfl rfl
    fun u v (h : Spares 0 u v) => h).2.1 rebuilding
  obtain ⟨s, passes, hv, hs, -, -, hhistory⟩ := (hcoheres.2 calls _ v (runs_alone hrun)).2 _ rfl
  exact ⟨calls, history, v, runs_alone hrun, hdeeds, s, passes, hv, hs, hhistory⟩

end Cell

end Steward
