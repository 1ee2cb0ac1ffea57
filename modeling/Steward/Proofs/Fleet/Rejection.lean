import Steward.Proofs.Cell.Reach
import Steward.Proofs.Cell.Tending
import Steward.Proofs.Fleet.Latecomer
import Steward.Proofs.Fleet.Newcomers
/-!
Registrations that fail. What checks refuse, what a factory does not make and what another component
of the name has outrun changes nothing; who is left out is known to be from then on, and who aborts
the first build pass stays as a member that is down. No other component has any part in it.
-/
namespace Steward

open Steward.Action World

variable {K : Kit}

namespace Cell

variable {w : World K} {id cell : CellId}

theorem minds_build_beside {name : String} (hid : w.Houses id name) (hne : cell ≠ id)
    (token : Token) : Meets (minding id) (build cell token) (fun _ _ _ => True) w := by
  refine Meets.get fun a ha => Meets.acquire (Meets.get fun b hb => Meets.getModify fun u hu => ?_)
  have hbegin : Spares id u
      (u.modifyCell cell fun c => { c with standing := c.standing.beginBuild }) :=
    spares_of_eq ((face?_beginBuild u).trans (if_neg hne))
  have hhouses := (ha.trans (hb.trans (Spares.trans hu hbegin))).houses hid
  have hpass (scope : Scope) : Meets (minding id) (pass cell scope) (fun _ _ _ => True)
      (u.modifyCell cell fun c => { c with standing := c.standing.beginBuild }) :=
    (meets_pass_of lends_minding scope (fun _ _ => trivial) fun v hv _ call x hx =>
      quiet_carryPool_beside ((hv.trans hx).houses hhouses) call).mono fun _ _ _ _ => trivial
  refine ⟨hbegin, Meets.seq (hpass _) fun _ ⟨asked, ending⟩ _ _ _ => Meets.get fun _ _ => ?_⟩
  refine Meets.modify fun x _ => ⟨spares_of_eq ((face?_endBuild _ _ _ _ x).trans (if_neg hne)), ?_⟩
  refine Meets.release (Meets.modify fun y _ => ⟨spares_of_eq (face?_armAfter _ y), ?_⟩)
  exact Meets.ite (fun _ => Meets.pure fun _ _ => trivial) fun _ => Meets.pure fun _ _ => trivial

end Cell

namespace Fleet

variable {among : Roster → Roster → Prop} {aside : Set CellId} {u v w : World K} {s : Step K}
  {d : Registry.Descriptor (Factory K)} {cell : CellId} {name : String}

/-- How a roster may change beside a registration: not at all, or step by step, and who was left out
once is so for good. -/
structure Lasting (among : Roster → Roster → Prop) : Prop where
  refl : ∀ r, among r r
  trans : ∀ {r s t}, among r s → among s t → among r t
  skipped : ∀ {r s}, among r s → r.skipped <+: s.skipped

theorem lasting_eq : Lasting Eq :=
  ⟨fun _ => rfl, Eq.trans, fun h => h ▸ List.prefix_refl _⟩

/-- What others do beside a registration: they change the roster as `among` says, and leave cells
that are set aside where they stand. -/
structure Beside (among : Roster → Roster → Prop) (aside : Set CellId) (v w : World K) : Prop where
  roster : among v.roster w.roster
  config : w.config = v.config
  cells : KeepsCells (fun _ => False) v w
  spares : ∀ x ∈ aside, Spares x v w

theorem Beside.trans (h : Lasting among) (huv : Beside among aside u v)
    (hvw : Beside among aside v w) : Beside among aside u w where
  roster := h.trans huv.roster hvw.roster
  config := hvw.config.trans huv.config
  cells := huv.cells.trans hvw.cells
  spares x hx := (huv.spares x hx).trans (hvw.spares x hx)

theorem beside_of_keeps (h : Lasting among) (hkeeps : Keeps (fun _ => False) v w)
    (hface : ∀ x, w.face? x = v.face? x) : Beside among aside v w where
  roster := hkeeps.roster ▸ h.refl _
  config := hkeeps.config
  cells := hkeeps.cells
  spares x _ := spares_of_eq (hface x)

theorem face?_notes (lines : List String) (w : World K) (x : CellId) :
    (lines.foldl World.note w).face? x = w.face? x := by
  induction lines generalizing w with
  | nil => rfl
  | cons line lines ih => exact ih (w.note line)

theorem beside_notes (h : Lasting among) (lines : List String) (w : World K) :
    Beside among aside w (lines.foldl World.note w) :=
  beside_of_keeps h (keeps_notes _ lines w) (face?_notes lines w)

theorem beside_report (h : Lasting among) (notice : Notice) (w : World K) :
    Beside among aside w (w.report notice) :=
  beside_of_keeps h (keeps_report w notice) fun _ => rfl

/-- Terms for a registration, which may do what it likes. -/
def besides (h : Lasting among) (aside : Set CellId) : Terms K where
  others := Beside among aside
  own _ _ := True
  may _ _ := True
  mayExit := True
  others_refl w := beside_of_keeps h (.refl _ w) fun _ => rfl
  others_trans := Beside.trans h
  own_of_others _ := trivial
  own_trans _ _ := trivial

def hosting (h : Lasting among) : Terms K :=
  { besides h ∅ with
    own := Beside among ∅
    own_of_others := fun h => h
    own_trans := Beside.trans h }

theorem hosts_hosting (h : Lasting among) : Hosts (hosting (K := K) h) fun _ => False where
  own hkeeps := ⟨hkeeps.roster ▸ h.refl _, hkeeps.config, hkeeps.cells, by simp⟩
  cells hv := hv.cells
  mini _ _ _ := trivial

def IsDown (w : World K) (cell : CellId) (name : String) : Prop :=
  ∃ s, w.face? cell = some ⟨name, false, s⟩ ∧ s.status = .unavailable ∧ s.built = false

theorem IsDown.spares (h : IsDown v cell name) (hw : Spares cell v w) : IsDown w cell name := by
  obtain ⟨s, hface, hs⟩ := h
  exact ⟨s, hw _ hface, hs⟩

theorem isDown_of_passed {s : Standing} {token : Token} {report : Report} {deed : Cell.Deed}
    (h : Cell.Passed cell token ⟨name, false, s⟩ ((name, report), deed) v)
    (hfatal : report.outcome.isFatal = true) : IsDown v cell name := by
  obtain ⟨asked, ending, elapsedMillis, finishedAt, -, -, hr, hv⟩ := h
  obtain ⟨-, rfl⟩ := Prod.mk.inj (Prod.mk.inj hr).1
  have hending : ending.outcome = .abort := by
    cases h : ending.outcome <;> simp [Scope.report, h, Outcome.isFatal] at hfatal ⊢
  refine ⟨_, hv, ?_, ?_⟩ <;>
    simp [Standing.endBuild, Scope.report, hending, Outcome.statusWith, Outcome.status,
      Outcome.isFatal]

structure FirstPass (among : Roster → Roster → Prop) (aside : Set CellId) (cell : CellId)
    (name : String) (w : World K) (calls : Calls K) (r : Except Fault Report) (v : World K) :
    Prop where
  beside : Beside among ∅ w v
  called : ofMembers calls = [.build cell .boot]
  spares : ∀ x ∈ aside, cell ≠ x → (∃ n, w.Houses x n) → Spares x w v
  failed : ∀ fault, r = .error fault →
    (∃ message, fault = .buildAborted name message) ∧ (cell ∈ aside → IsDown v cell name)

theorem meets_firstPass (h : Lasting among) (hhouses : w.Houses cell name) :
    Meets (besides h aside) (Cell.build cell .boot) (FirstPass among aside cell name w) w := by
  obtain ⟨c, hc, rfl, hmini⟩ := id hhouses
  have hface : w.face? cell = some ⟨c.name, false, c.standing⟩ := by
    rw [face?_of_cell? hc, Cell.face, hmini]
  have hbuilt : Meets (besides h aside) (Cell.build cell .boot) (fun calls r v =>
      Beside among ∅ w v ∧ Cell.CallsOf (.build cell .boot) cell w (ofMembers calls) ∧
        ∃ n, Answers n .boot r ∧ ∀ m, w.Houses cell m → n = m) w :=
    (Cell.meets_build (hosts_hosting h) .boot fun _ _ => trivial).own.relax
      (fun _ _ hv => ⟨hv.roster, hv.config, hv.cells, by simp⟩) (fun _ _ _ => trivial)
      (fun _ _ h => h) fun h => h
  have hpassed (hin : cell ∈ aside) : Meets (besides h aside) (Cell.build cell .boot)
      (fun _ r v => ∃ report deed, Cell.Passed cell .boot ⟨c.name, false, c.standing⟩
        ((c.name, report), deed) v ∧ r = Cell.answerOf c.name report) w :=
    (Cell.meets_buildWith_answer (fun scope _ => Cell.minds_pass scope) hface .boot).relax
      (fun _ _ hv => hv.spares cell hin) (fun _ _ h => h) (fun _ _ h => h) False.elim
  have hspares (x : { x // x ∈ aside ∧ cell ≠ x ∧ ∃ n, w.Houses x n }) :
      Meets (besides h aside) (Cell.build cell .boot) (fun _ _ v => Spares x w v) w := by
    obtain ⟨x, hin, hne, n, hx⟩ := x
    exact (Cell.spares_of_minding (Cell.minds_build_beside hx hne .boot)).relax
      (fun _ _ hv => hv.spares x hin) (fun _ _ h => h) (fun _ _ h => h) False.elim
  refine ((hbuilt.all hpassed).all hspares).mono fun calls r v hall => ?_
  obtain ⟨⟨⟨hbeside, hcalls, n, hanswers, hn⟩, hpassed⟩, hspares⟩ := hall
  obtain rfl := hn _ hhouses
  refine ⟨hbeside, hcalls.of_houses hhouses, fun x hin hne hx => hspares ⟨x, hin, hne, hx⟩, ?_⟩
  rintro fault rfl
  obtain ⟨report, -, -, -, rfl⟩ := hanswers.of_error
  refine ⟨⟨_, rfl⟩, fun hin => ?_⟩
  obtain ⟨report, deed, hv, hanswer⟩ := hpassed hin
  refine isDown_of_passed hv ?_
  by_contra hfatal
  rw [Cell.answerOf, if_neg hfatal] at hanswer
  cases hanswer

inductive Makes (among : Roster → Roster → Prop) (aside : Set CellId) (s : Step K) (w : World K)
    (calls : Calls K) : Except Fault CellId → World K → Prop
  | unmade {x v : World K} {fault : Fault} (called : calls = [(.factory s.name, x)])
      (product : (s.factory ⟨s.name, x⟩).product = .error fault)
      (beside : Beside among aside w v) : Makes among aside s w calls (.error fault) v
  | outrun {x y v : World K} (called : calls = [(.factory s.name, x)])
      (before : Beside among aside w y) (taken : (y.roster.member? s.name).isSome = true)
      (beside : Beside among aside w v) :
      Makes among aside s w calls (.error (.duplicateComponent s.name)) v
  | made {x y v : World K} {product : Product K} (called : calls = [(.factory s.name, x)])
      (before : Beside among aside w y) (free : y.roster.member? s.name = none)
      (beside : Beside among aside (join s product y) v) :
      Makes among aside s w calls (.ok y.cells.size) v

theorem meets_make_beside (h : Lasting among) :
    Meets (besides h aside) (make s) (Makes among aside s w) w := by
  refine Meets.invoke fun x hx => ⟨trivial, Meets.modify fun u hu => ⟨trivial, ?_⟩⟩
  have hnotes : Beside among aside w ((s.factory ⟨s.name, x⟩).notes.foldl World.note u) :=
    hx.trans h (hu.trans h (beside_notes h _ u))
  rcases hproduct : (s.factory ⟨s.name, x⟩).product with fault | product
  · exact Meets.pure fun v hv => .unmade rfl hproduct (hnotes.trans h hv)
  · refine Meets.getModify fun y hy => ⟨trivial, ?_⟩
    have hy' : Beside among aside w y := hnotes.trans h hy
    by_cases htaken : (y.roster.member? s.name).isSome = true
    · simp only [htaken, if_true]
      exact Meets.pure fun v hv => .outrun rfl hy' htaken (hy'.trans h hv)
    · simp only [htaken, Bool.false_eq_true, if_false]
      exact Meets.pure fun v hv => .made rfl hy' (by simpa using htaken) hv

/-- How booting a step fails: it is not made, another component of its name has joined before it, or
it joins and aborts its first build pass. -/
inductive Falls (among : Roster → Roster → Prop) (aside : Set CellId) (s : Step K) (w : World K)
    (calls : Calls K) : Fault → World K → Prop
  | unmade {x v : World K} {fault : Fault} (called : calls = [(.factory s.name, x)])
      (product : (s.factory ⟨s.name, x⟩).product = .error fault)
      (kept : among w.roster v.roster) : Falls among aside s w calls fault v
  | outrun {x v : World K} {r : Roster} (called : calls = [(.factory s.name, x)])
      (seen : among w.roster r) (taken : (r.member? s.name).isSome = true)
      (kept : among w.roster v.roster) :
      Falls among aside s w calls (.duplicateComponent s.name) v
  /-- The component stays as a member. Its cell is new, and if others leave it alone, it is down. -/
  | aborted {r : Roster} {cell : CellId} {message : String} {v : World K}
      (called : ofMembers calls = [.factory s.name, .build cell .boot])
      (fresh : w.cells.size ≤ cell) (seen : among w.roster r) (free : r.member? s.name = none)
      (added : among (enrolled s cell r) v.roster) (down : cell ∈ aside → IsDown v cell s.name) :
      Falls among aside s w calls (.buildAborted s.name message) v

theorem Falls.later {fault : Fault} {calls : Calls K} (h : Lasting among)
    (hfalls : Falls among aside s w calls fault v) (hu : Beside among aside v u) :
    Falls among aside s w calls fault u := by
  cases hfalls with
  | unmade called product kept => exact .unmade called product (h.trans kept hu.roster)
  | outrun called seen taken kept => exact .outrun called seen taken (h.trans kept hu.roster)
  | aborted called fresh seen free added down =>
    exact .aborted called fresh seen free (h.trans added hu.roster)
      fun hin => (down hin).spares (hu.spares _ hin)

theorem Falls.earlier {fault : Fault} {calls : Calls K} (h : Lasting among)
    (hfalls : Falls among aside s v calls fault w) (hu : Beside among aside u v) :
    Falls among aside s u calls fault w := by
  cases hfalls with
  | unmade called product kept => exact .unmade called product (h.trans hu.roster kept)
  | outrun called seen taken kept =>
    exact .outrun called (h.trans hu.roster seen) taken (h.trans hu.roster kept)
  | aborted called fresh seen free added down =>
    exact .aborted called (Nat.le_trans hu.cells.size_le fresh) (h.trans hu.roster seen) free added
      down

/-- The components that are set aside stand where they stood. -/
def Untouched (aside : Set CellId) (v w : World K) : Prop :=
  ∀ x ∈ aside, (∃ n, v.Houses x n) → Spares x v w

theorem meets_boot_beside (h : Lasting among) :
    Meets (besides h aside) (boot s) (fun calls r v =>
      (∀ fault, r = .error fault → Falls among aside s w calls fault v) ∧ Untouched aside w v)
      w := by
  refine Meets.seq (meets_make_beside h) fun before r v _ hmade => ?_
  cases hmade with
  | unmade called product beside =>
    refine Meets.pure fun u hu => ⟨?_, fun x hx _ => (beside.trans h hu).spares x hx⟩
    rintro _ ⟨⟩
    exact .unmade (by simpa using called) product (beside.trans h hu).roster
  | outrun called hy taken beside =>
    refine Meets.pure fun u hu => ⟨?_, fun x hx _ => (beside.trans h hu).spares x hx⟩
    rintro _ ⟨⟩
    exact .outrun (by simpa using called) hy.roster taken (beside.trans h hu).roster
  | @made x y _ product called hy free beside =>
    refine Meets.seq (meets_firstPass h (beside.cells.houses (houses_join s product y)))
      fun first r u _ hpass => ?_
    have huntouched : Untouched aside w u := by
      rintro z hin ⟨n, hz⟩
      have hjoin : Spares z y (join s product y) := spares_addCell y _
      have hzv : Spares z w v := (hy.spares z hin).trans (hjoin.trans (beside.spares z hin))
      have hne : y.cells.size ≠ z := by
        rintro rfl
        obtain ⟨c, hc, -⟩ := (hy.spares _ hin).houses hz
        simp [cell?] at hc
      exact hzv.trans (hpass.spares z hin hne ⟨n, hzv.houses hz⟩)
    cases r with
    | ok report =>
      refine Meets.modify fun z hz => ⟨trivial, Meets.pure fun a ha => ⟨by simp, ?_⟩⟩
      intro x hin hx
      exact (huntouched x hin hx).trans ((hz.spares x hin).trans (ha.spares x hin))
    | error fault =>
      refine Meets.pure fun z hz => ⟨?_, fun x hin hx => (huntouched x hin hx).trans (hz.spares x hin)⟩
      rintro _ ⟨⟩
      obtain ⟨⟨message, rfl⟩, hdown⟩ := hpass.failed _ rfl
      refine .aborted ?_ hy.cells.size_le hy.roster free ?_ fun hin => (hdown hin).spares (hz.spares _ hin)
      · simp [called, hpass.called, Invocation.isOfMini]
      · exact h.trans (h.trans beside.roster hpass.beside.roster) hz.roster

theorem meets_onAbort_beside (h : Lasting among) (fault : Fault) :
    Meets (besides h aside) (onAbort fault) (fun calls _ v =>
      calls = [] ∧ Beside among aside w v) w := by
  cases fault with
  | buildAborted name message =>
    refine Meets.get fun u hu => ?_
    cases u.config.abortPolicy with
    | propagate =>
      refine Meets.of_bind_pure (Meets.report fun v hv => ⟨trivial, Meets.pure fun x hx => ?_⟩)
      exact ⟨rfl, hu.trans h (hv.trans h ((beside_report h _ v).trans h hx))⟩
    | exit => exact Meets.report fun _ _ => ⟨trivial, trivial⟩
  | _ => exact Meets.pure fun v hv => ⟨rfl, hv⟩

theorem meets_checkAbort_beside {α : Type} (h : Lasting among) (r : Except Fault α) :
    Meets (besides h aside) (checkAbort r) (fun calls r' v =>
      calls = [] ∧ r' = r ∧ Beside among aside w v) w := by
  cases r with
  | ok a => exact Meets.pure fun v hv => ⟨rfl, rfl, hv⟩
  | error fault =>
    refine Meets.seq (meets_onAbort_beside h fault) fun _ _ u _ ⟨hcalls, hu⟩ => ?_
    exact Meets.pure fun v hv => ⟨by simp [hcalls], rfl, hu.trans h hv⟩

/-- Whoever registers a component under a name is refused, before anything is made; and as a
duplicate, unless the component is refused for a reference to itself. -/
def Refuses (w : World K) (name : String) : Prop :=
  ∀ d : Registry.Descriptor (Factory K), d.name = name →
    Yields (World.Keeps fun _ => False) (register d) w fun calls r v =>
      calls = [] ∧ v.roster = w.roster ∧
        ∃ fault, r = .error fault ∧ (d.check = .ok () → fault = .duplicateComponent name)

theorem refuses_of_isTaken (h : IsTaken w.roster name) : Refuses w name := by
  rintro d rfl
  refine (meets_register_taken ?_).yields (fun _ _ h => h) fun h => h
  rwa [← Bool.or_eq_true, any_isSome_iff_isTaken]

theorem isTaken_of_skipped {left : List Registry.Skipped} {reason : String} {r : Roster}
    (h : left ++ [⟨name, reason⟩] <+: r.skipped) : IsTaken r name :=
  .inr ((h.map (·.name)).subset (by simp))

/-- How a registration fails that others change the roster beside, as `among` says. -/
inductive Fails (among : Roster → Roster → Prop) (aside : Set CellId)
    (d : Registry.Descriptor (Factory K)) (w : World K) (calls : Calls K) :
    Fault → World K → Prop
  /-- The component is refused by the roster that is seen, and nothing changes. -/
  | refused {r : Roster} {fault : Fault} {v : World K} (called : calls = [])
      (seen : among w.roster r) (why : Refusal d w.config.context r fault)
      (kept : among w.roster v.roster) : Fails among aside d w calls fault v
  /-- The component is left out under a name that was free, and is refused from then on. -/
  | skipped {r s : Roster} {reason : String} {v : World K} (called : calls = [])
      (passes : d.check = .ok ()) (seen : among w.roster r) (free : ¬ IsTaken r d.name)
      (why : Omission d w.config.context r reason) (before : among w.roster s)
      (added : among { s with skipped := s.skipped ++ [⟨d.name, reason⟩] } v.roster)
      (refuses : ∀ u, Attended v u → Refuses u d.name) :
      Fails among aside d w calls (.componentSkipped d.name reason) v
  /-- The component is welcome, and then is not made or aborts its first build pass. -/
  | fell {step : Step K} {fault : Fault} {v : World K} (name : step.name = d.name)
      (factory : ∃ isManager,
        (d.effective w.config.context).kind = .concrete step.factory isManager)
      (falls : Falls among aside step w calls fault v) : Fails among aside d w calls fault v

theorem meets_register_beside (h : Lasting among) (d : Registry.Descriptor (Factory K))
    (w : World K) : Meets (besides h aside) (register d) (fun calls r v =>
      (∀ fault, r = .error fault → Fails among aside d w calls fault v) ∧ Untouched aside w v)
      w := by
  refine Meets.get fun u hu => ?_
  have hreceives := receives_receive d u
  rcases hreceive : receive u d with ⟨notes, reception⟩
  rw [hreceive, hu.config] at hreceives
  refine Meets.modify fun x hx => ⟨trivial, ?_⟩
  have hnotes : Beside among aside w (notes.foldl World.note x) :=
    hu.trans h (hx.trans h (beside_notes h notes x))
  cases hreceives with
  | refused why =>
    refine Meets.pure fun v hv => ⟨?_, fun z hin _ => (hnotes.trans h hv).spares z hin⟩
    rintro _ ⟨⟩
    exact .refused rfl hu.roster why (hnotes.trans h hv).roster
  | @skipped reason passes free why =>
    refine Meets.modify fun y hy => ⟨trivial, Meets.pure fun v hv => ⟨?_, ?_⟩⟩
    · rintro _ ⟨⟩
      refine .skipped rfl passes hu.roster free why (hnotes.trans h hy).roster hv.roster ?_
      intro a ha
      exact refuses_of_isTaken (isTaken_of_skipped ((h.skipped hv.roster).trans ha.advances.skipped))
    · exact fun z hin _ => ((hnotes.trans h hy).spares z hin).trans (hv.spares z hin)
  | @welcome step name factory =>
    refine Meets.report fun y hy => ⟨trivial, ?_⟩
    have hy' : Beside among aside w (y.report (.registering d.name)) :=
      hnotes.trans h (hy.trans h (beside_report h _ y))
    refine Meets.seq (meets_boot_beside h) fun first r z _ ⟨hfalls, hz⟩ => ?_
    refine (meets_checkAbort_beside h r).mono fun later r' v ⟨hlater, hr', hv⟩ => ?_
    subst hlater hr'
    constructor
    · intro fault hr
      rw [List.append_nil]
      exact .fell name factory (((hfalls fault hr).later h hv).earlier h hy')
    · rintro x hin ⟨n, hx⟩
      have hxy := hy'.spares x hin
      exact hxy.trans ((hz x hin ⟨n, hxy.houses hx⟩).trans (hv.spares x hin))

/-- A registration that fails, of any component, in any world, while others change the roster as
`among` says, which is equality if they leave it alone. If the component is refused, is not made or
is outrun, the registration changes nothing, and calls no more than the factory. If it is left out,
just that is noted, nothing is called, and its name is refused from then on. And if it aborts its
first build pass, it is one member more, which is down and has no report. In no case is another
component touched. -/
theorem failed_registration_changes_only (h : Lasting among) (d : Registry.Descriptor (Factory K))
    {calls : Calls K} {fault : Fault}
    (run : Runs (Beside among aside) (register d) w calls (.done (.error fault)) v) :
    Fails among aside d w calls fault v ∧ Untouched aside w v :=
  have hends := run.ends (T := besides h aside) (meets_register_beside h d w)
  ⟨hends.1 fault rfl, hends.2⟩

/-- A component that aborts all its build passes. -/
def aborting (name : String) : Registry.Descriptor (Factory Rehearsal.kit) :=
  let probe : Rehearsal.Probe := { label := name, build := some (.ofText "abort") }
  let factory : Factory Rehearsal.kit := fun _ => { product := .ok { service := .probe probe } }
  { Registry.Blueprint.concrete name factory with }

theorem exists_runs_of_error {α : Type} {p : Action K (Except Fault α)}
    {others : World K → World K → Prop} {fault : Fault}
    (h : (alone p w).map (fun run => run.2.1) = some (.error fault)) :
    ∃ calls, Runs others p w calls (.done (.error fault)) (after p w) := by
  obtain ⟨⟨calls, r, v⟩, hrun, rfl⟩ := Option.map_eq_some_iff.1 h
  rw [after, hrun]
  exact ⟨calls, runs_alone hrun⟩

theorem failed_registration_changes_only_cacheAndStore :
    let u := after (start cacheAndStore { abortPolicy := .propagate }) {}
    let unwanted := { idle "sms" [] with condition := .fixed false }
    let v := after (register unwanted) u
    let w := after (register (aborting "push")) v
    (∃ calls, Fails Eq Set.univ unwanted u calls
      (.componentSkipped "sms" Registry.conditionIsFalse) v) ∧ Untouched Set.univ u v ∧
    (∃ calls, Fails Eq Set.univ (aborting "push") v calls
      (.buildAborted "push" "build aborted: push: abort") w) ∧ Untouched Set.univ v w := by
  intro u unwanted v w
  obtain ⟨calls, hskipped⟩ : ∃ calls, Runs (Beside Eq Set.univ) (register unwanted) u calls
      (.done (.error (.componentSkipped "sms" Registry.conditionIsFalse))) v :=
    exists_runs_of_error (by decide +kernel)
  obtain ⟨calls', haborted⟩ : ∃ calls, Runs (Beside Eq Set.univ) (register (aborting "push")) v
      calls (.done (.error (.buildAborted "push" "build aborted: push: abort"))) w :=
    exists_runs_of_error (by decide +kernel)
  obtain ⟨hv, huv⟩ := failed_registration_changes_only lasting_eq unwanted hskipped
  obtain ⟨hw, hvw⟩ := failed_registration_changes_only lasting_eq (aborting "push") haborted
  exact ⟨⟨calls, hv⟩, huv, ⟨calls', hw⟩, hvw⟩

end Fleet

end Steward
