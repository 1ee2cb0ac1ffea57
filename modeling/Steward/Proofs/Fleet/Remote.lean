import Steward.Proofs.Cell.Reach
import Steward.Proofs.Cell.Tending
import Steward.Proofs.Fleet.Reached
import Steward.Proofs.Fleet.Target
import Steward.Proofs.Waiting.Rehearsal
/-!
State changes that other processes ask for. If a change is meant for nothing, then nothing happens.
Otherwise all cells stay as they are but the one that it is meant for and, if a manager is built or
torn down, its mini-services.
-/
namespace Steward

open Steward.Action World

variable {K : Kit}

namespace Fleet

variable {w : World K} {change : Change}

theorem meets_apply_of_error {others : World K → World K → Prop} (hw : Housed w)
    (hothers : ∀ u v, others u v → Awaits w change u v) {fault : Fault}
    (hmeant : meant w change = .error fault) :
    Meets (Cell.idling others) (apply change) (fun calls r v =>
      r = .error fault ∧ calls = [] ∧ Relation.ReflTransGen others w v) w := by
  refine Meets.seq (meets_target hw fun u v => awaits_of_reflTransGen hothers)
    fun _ r u _ ⟨hcalls, hr, hu⟩ => ?_
  rw [hmeant] at hr
  subst hcalls hr
  exact Meets.pure fun v hv => ⟨rfl, rfl, Relation.ReflTransGen.trans hu hv⟩

/-- The mini-services that a change may reach besides the cell that it is meant for. If it builds or
tears down a component, these are the ones that the component keeps, and those that it enrolls. -/
def pool (B : Bounds K) (w : World K) (change : Change) (cell : CellId) : Set CellId :=
  {x | (change.toDestroy = true ∨ change.toBuild = true) ∧ ∃ c s, w.cell? cell = some c ∧
    c.inner = .service s ∧ (w.cells.size ≤ x ∨ w.holdsMini x = true ∧ x ∈ B.minis s)}

section Reach

variable {R : Reach K}

theorem allows_onAbort (fault : Fault) (hR : w.config.abortPolicy = .exit → R.exits) :
    R.Allows (onAbort fault) w := by
  cases fault with
  | buildAborted name message =>
    refine Meets.get fun u hu => ?_
    rw [hu.keeps.config]
    cases hpolicy : w.config.abortPolicy with
    | propagate => exact Reach.Allows.report _
    | exit => exact Reach.Allows.bind (.report _) fun _ _ _ => hR hpolicy
  | _ => exact .pure ()

theorem allows_checkAbort {α : Type} (r : Except Fault α)
    (hR : w.config.abortPolicy = .exit → R.exits) : R.Allows (checkAbort r) w := by
  cases r with
  | ok a => exact .pure _
  | error fault => exact .bind (allows_onAbort fault hR) fun _ _ _ => .pure _

theorem allows_apply (hw : Housed w) (hmeant : meant w change = .ok R.cell)
    (hothers : ∀ u v, R.Awaits u v → Awaits w change u v)
    (hsuits : change.toDestroy = true ∨ change.toBuild = true → R.Suits w)
    (hexits : change.toBuild = true → w.config.abortPolicy = .exit → R.exits) :
    R.Allows (apply change) w := by
  have hcell : R.cell ∈ insert R.cell R.pool := Set.mem_insert _ _
  have hbuild {v : World K} (hv : R.Tends w v) : R.Allows (if change.toBuild then do
      return (← checkAbort (← Cell.build R.cell change.token)).map some
      else return .ok none) v := by
    refine .ite (fun hacts => ?_) fun _ => .pure _
    refine .bind (.build (hv.suits (hsuits (.inr hacts))) _) fun r u hu => ?_
    refine .bind (allows_checkAbort r fun hpolicy => hexits hacts ?_) fun _ _ _ => .pure _
    rwa [(hv.trans hu).keeps.config] at hpolicy
  refine Meets.seq (meets_target hw hothers) fun _ r u hu ⟨hcalls, hr, _⟩ => ?_
  rw [hmeant] at hr
  subst hcalls hr
  refine Reach.Allows.bind (.report _) fun _ v hv => .bind (.setStatus hcell _) fun _ x hx => ?_
  have hx' := hu.trans (hv.trans hx)
  refine .ite (fun hacts => ?_) fun _ => hbuild hx'
  exact .bind (.destroy (hx'.suits (hsuits (.inl hacts)))) fun _ y hy => hbuild (hx'.trans hy)

end Reach

/-- Where a cell stands that a change is carried out on, before it is built. What was destroyed is
not destroyed again. -/
def settled (change : Change) (s : Standing) : Standing :=
  if change.toDestroy = true ∧ s.destroyed = false then
    (s.assign change.status).beginDestroy.endDestroy
  else s.assign change.status

inductive Leaves (change : Change) (name : String) (s : Standing) :
    Except Fault (Option Report) → Standing → Prop
  | unbuilt (h : change.toBuild = false) : Leaves change name s (.ok none) (settled change s)
  | built {asked : Scope} {ending : Ending} {elapsedMillis : Nat} {finishedAt : Instant}
      (h : change.toBuild = true) (hname : asked.component = name)
      (htoken : asked.token = change.token) (hending : ending.outcome ≠ .abort) :
      Leaves change name s (.ok (some (asked.report ending elapsedMillis finishedAt)))
        ((settled change s).endBuild (asked.report ending elapsedMillis finishedAt) asked.disabled)
  | aborted {asked : Scope} {ending : Ending} {elapsedMillis : Nat} {finishedAt : Instant}
      (h : change.toBuild = true) (hname : asked.component = name)
      (htoken : asked.token = change.token) (hending : ending.outcome = .abort) :
      Leaves change name s (.error (.buildAborted name (ending.message?.getD "")))
        ((settled change s).endBuild (asked.report ending elapsedMillis finishedAt) asked.disabled)

theorem leaves_answerOf {asked : Scope} {ending : Ending} {elapsedMillis : Nat}
    {finishedAt : Instant} {name : String} {s : Standing} (h : change.toBuild = true)
    (hname : asked.component = name) (htoken : asked.token = change.token) :
    Leaves change name s
      ((Cell.answerOf name (asked.report ending elapsedMillis finishedAt)).map some)
      ((settled change s).endBuild (asked.report ending elapsedMillis finishedAt)
        asked.disabled) := by
  have hfatal : (asked.report ending elapsedMillis finishedAt).outcome.isFatal = true ↔
      ending.outcome = .abort := by
    cases hending : ending.outcome <;> simp [Scope.report, hending, Outcome.isFatal]
  by_cases hending : ending.outcome = .abort
  · rw [Cell.answerOf, if_pos (hfatal.2 hending)]
    exact .aborted h hname htoken hending
  · rw [Cell.answerOf, if_neg fun hout => hending (hfatal.1 hout)]
    exact .built h hname htoken hending

theorem Leaves.of_error {name : String} {s s' : Standing} {fault : Fault}
    (h : Leaves change name s (.error fault) s') :
    (∃ reason, fault = .buildAborted name reason) ∧ s'.status = .unavailable ∧
      s'.built = false := by
  cases h with
  | aborted h hname htoken hending =>
    refine ⟨⟨_, rfl⟩, ?_, ?_⟩ <;>
      simp [Standing.endBuild, Scope.report, hending, Outcome.statusWith, Outcome.status,
        Outcome.isFatal]

section Leads

variable {cell : CellId} {v : World K} {c : Cell K} {face : Face} {α : Type}

def carrying (w : World K) (change : Change) : Terms K where
  others := Awaits w change
  own _ _ := True
  may _ _ := True
  mayExit := True
  others_refl := .refl w change
  others_trans := .trans
  own_of_others _ := trivial
  own_trans _ _ := trivial

theorem carrying_of_working {p : Action K α} {post : Calls K → α → World K → Prop}
    (hcell : Means w change (.ok cell)) (h : Meets (Cell.working cell) p post v) :
    Meets (carrying w change) p post v :=
  h.relax (fun _ _ hothers => (hothers.meant cell hcell).spares) (fun _ _ h => h) (fun _ _ h => h)
    False.elim

theorem meets_assigned (hcell : Means w change (.ok cell)) (hv : v.bare? cell = some c)
    (status : Status) : Meets (carrying w change) (Cell.setStatus cell status) (fun _ _ u =>
      u.bare? cell = some (c.restand (·.assign status))) v := by
  refine Meets.acquire (Meets.modify fun u hu => ⟨trivial, Meets.release ?_⟩)
  refine Meets.pure fun x hx => hx.meant cell hcell _ ?_
  rw [Cell.bare?_assign, if_pos rfl, hu.meant cell hcell _ hv, Option.map_some]

theorem meets_destroyed (hcell : Means w change (.ok cell)) (hv : v.face? cell = some face) :
    Meets (carrying w change) (Cell.destroy cell) (fun _ _ u => u.face? cell =
      some (face.restand fun s => if s.destroyed then s else s.beginDestroy.endDestroy)) v := by
  rw [← Cell.map_destroyTold, map_eq_pure_bind]
  refine Meets.seq (carrying_of_working hcell (Cell.meets_destroyTold hv))
    fun _ deed u _ ⟨s, hu, hdoes⟩ => Meets.pure fun x hx => hx.face? hcell ?_
  rw [hu]
  cases hdoes with
  | destroy hstanding => simp [Face.restand, hstanding]
  | destroyAgain hdestroyed => simp [Face.restand, hdestroyed]

theorem meets_onAbort_carrying (fault : Fault) (hcell : Means w change (.ok cell))
    (hv : v.face? cell = some face) :
    Meets (carrying w change) (onAbort fault) (fun _ _ u => u.face? cell = some face) v := by
  cases fault with
  | buildAborted name message =>
    refine Meets.get fun u hu => ?_
    have hu' := hu.face? hcell hv
    cases u.config.abortPolicy with
    | propagate =>
      refine Meets.of_bind_pure (Meets.report fun x hx => ⟨trivial, Meets.pure fun y hy => ?_⟩)
      exact hy.face? hcell (hx.face? hcell hu')
    | exit => exact Meets.report fun x hx => ⟨trivial, trivial⟩
  | _ => exact Meets.pure fun u hu => hu.face? hcell hv

theorem meets_checkAbort_carrying {r : Except Fault α} (hcell : Means w change (.ok cell))
    (hv : v.face? cell = some face) :
    Meets (carrying w change) (checkAbort r) (fun _ r' u => r' = r ∧ u.face? cell = some face)
      v := by
  cases r with
  | ok a => exact Meets.pure fun u hu => ⟨rfl, hu.face? hcell hv⟩
  | error fault =>
    refine Meets.seq (meets_onAbort_carrying fault hcell hv) fun _ _ u _ hu => Meets.pure fun x hx => ?_
    exact ⟨rfl, hx.face? hcell hu⟩

/-- The build that a change asks for, if it does, of a cell where everything else has been done. -/
theorem meets_rebuilt (hcell : Means w change (.ok cell)) {name : String} {isMini : Bool}
    {s : Standing} (hv : v.face? cell = some ⟨name, isMini, settled change s⟩) :
    Meets (carrying w change) (if change.toBuild then do
      return (← checkAbort (← Cell.build cell change.token)).map some
      else return .ok none) (fun _ r u =>
        (∃ s', u.face? cell = some ⟨name, isMini, s'⟩ ∧ Leaves change name s r s') ∧
          (change.toBuild = false → Guards cell v u)) v := by
  refine Meets.ite (fun hbuild => ?_) fun hbuild => ?_
  · have hbuilt := carrying_of_working hcell
      (Cell.meets_buildWith_answer (fun scope _ => Cell.minds_pass scope) hv change.token)
    refine Meets.seq hbuilt fun _ r u _ hdone => ?_
    obtain ⟨_, _, ⟨asked, ending, millis, finishedAt, hname, htoken, ⟨⟩, hu⟩, rfl⟩ := hdone
    refine Meets.seq (meets_checkAbort_carrying hcell hu) fun _ r' x _ hchecked => ?_
    obtain ⟨rfl, hx⟩ := hchecked
    refine Meets.pure fun y hy => ⟨⟨_, hy.face? hcell hx, ?_⟩, fun hkept => ?_⟩
    · exact leaves_answerOf hbuild hname htoken
    · rw [hbuild] at hkept
      exact Bool.noConfusion hkept
  · refine Meets.pure fun u hu => ⟨⟨_, hu.face? hcell hv, .unbuilt ?_⟩, fun _ => ?_⟩
    · exact Bool.eq_false_iff.2 hbuild
    · exact hu.meant cell hcell

/-- What came of a change that was carried out on a cell. -/
structure Carried (change : Change) (c : Cell K) (cell : CellId) (r : Except Fault (Option Report))
    (v : World K) : Prop where
  /-- The cell stands where the change leaves it. -/
  leaves : ∃ s, v.face? cell = some ⟨c.name, c.isMini, s⟩ ∧ Leaves change c.name c.standing r s
  /-- A change that does not build or tear down assigns a status and changes nothing else. -/
  assigned : change.toDestroy = false → change.toBuild = false →
    v.bare? cell = some (c.bare.restand (·.assign change.status))
  /-- No change fails but by an abort, which leaves the cell unavailable and not built. -/
  aborted : ∀ fault, r = .error fault → (∃ reason, fault = .buildAborted c.name reason) ∧
    ∃ s, v.face? cell = some ⟨c.name, c.isMini, s⟩ ∧ s.status = .unavailable ∧ s.built = false

theorem carried_of_leaves {r : Except Fault (Option Report)} {s : Standing}
    (hv : v.face? cell = some ⟨c.name, c.isMini, s⟩) (hs : Leaves change c.name c.standing r s)
    (hassigned : change.toDestroy = false → change.toBuild = false →
      v.bare? cell = some (c.bare.restand (·.assign change.status))) :
    Carried change c cell r v where
  leaves := ⟨s, hv, hs⟩
  assigned := hassigned
  aborted fault hr := by
    subst hr
    obtain ⟨hfault, hstatus, hbuilt⟩ := hs.of_error
    exact ⟨hfault, s, hv, hstatus, hbuilt⟩

theorem meets_apply (hw : Housed w) (hcell : Means w change (.ok cell))
    (hc : w.cell? cell = some c) :
    Meets (carrying w change) (apply change) (fun _ r v => Carried change c cell r v) w := by
  have hmeant : meant w change = .ok cell := (means_meant hw change).unique hcell
  refine Meets.seq (meets_target hw fun _ _ h => h) fun _ r u _ ⟨_, hr, hu⟩ => ?_
  rw [hmeant] at hr
  subst hr
  refine Meets.report fun x hx => ⟨trivial, ?_⟩
  have hbare : (x.report (.applying change)).bare? cell = some c.bare :=
    hx.meant cell hcell _ (hu.meant cell hcell _ (bare?_of_cell? hc))
  refine Meets.seq (meets_assigned hcell hbare change.status) fun _ _ y _ hy => ?_
  have hface : y.face? cell = some ⟨c.name, c.isMini, c.standing.assign change.status⟩ := by
    rw [face?_eq_map_bare?, hy, Option.map_some]
    rfl
  refine Meets.ite (fun hdestroy => ?_) fun hdestroy => ?_
  · refine Meets.seq (meets_destroyed hcell hface) fun _ _ z _ hz => ?_
    have hsettled : z.face? cell = some ⟨c.name, c.isMini, settled change c.standing⟩ := by
      rw [hz]
      cases hstanding : c.standing.destroyed <;>
        simp [Face.restand, settled, hdestroy, Standing.assign, hstanding]
    refine (meets_rebuilt hcell hsettled).mono fun _ r v hdone => ?_
    obtain ⟨⟨s, hv, hs⟩, -⟩ := hdone
    refine carried_of_leaves hv hs fun hkept => ?_
    rw [hdestroy] at hkept
    exact Bool.noConfusion hkept
  · have hsettled : y.face? cell = some ⟨c.name, c.isMini, settled change c.standing⟩ := by
      rwa [settled, if_neg fun h => hdestroy h.1]
    refine (meets_rebuilt hcell hsettled).mono fun _ r v hdone => ?_
    obtain ⟨⟨s, hv, hs⟩, hkept⟩ := hdone
    exact carried_of_leaves hv hs fun _ hbuild => hkept hbuild _ hy

end Leads

section Containment

variable {B : Bounds K} {others : World K → World K → Prop} {cell : CellId} {c : Cell K}

def reach (B : Bounds K) (others : World K → World K → Prop) (w : World K) (change : Change)
    (cell : CellId) : Reach K where
  bounds := B
  cell := cell
  pool := pool B w change cell
  size := w.cells.size
  spared := {x | x ≠ cell ∧ x ∉ pool B w change cell ∧ ∀ u v, others u v → Guards x u v}
  apart := by
    rintro x (rfl | hx) hspared
    · exact hspared.1 rfl
    · exact hspared.2.1 hx
  exits := change.toBuild = true ∧ w.config.abortPolicy = .exit

theorem not_mem_pool (hw : Housed w) {m : Member} (hm : m ∈ w.roster.members) :
    m.cell ∉ pool B w change cell := by
  obtain ⟨c, hc, -, hmini⟩ := hw.houses m hm
  rintro ⟨-, -, -, -, -, hsize | ⟨hholds, -⟩⟩
  · exact absurd (Array.getElem?_eq_some_iff.1 hc).1 (Nat.not_lt.2 hsize)
  · simp [holdsMini, hc, hmini] at hholds

theorem pool_eq_empty (hc : w.cell? cell = some c) (hmini : c.isMini = true) :
    pool B w change cell = ∅ := by
  refine Set.eq_empty_of_forall_notMem ?_
  rintro x ⟨-, d, s, hd, hs, -⟩
  obtain rfl : c = d := Option.some.inj (hc.symm.trans hd)
  simp [Cell.isMini, hs] at hmini

end Containment

end Fleet

namespace Estate

variable {B : Bounds K} {e : Estate B} {x manager cell : CellId} {c : Cell K} {change : Change}

theorem exists_mini (h : e.owner x = some manager) :
    ∃ c, e.world.cell? x = some c ∧ c.isMini = true := by
  obtain ⟨inner, hinner⟩ := exists_inner (lt_size_of_owner h)
  obtain ⟨c, hc, rfl⟩ := Option.map_eq_some_iff.1 hinner
  refine ⟨c, hc, ?_⟩
  have hfits := e.fits x c.inner hinner
  cases hc : c.inner with
  | service s =>
    rw [hc] at hfits
    rw [hfits.1] at h
    cases h
  | mini m => rw [Cell.isMini, hc]

open Fleet

/-- What a change is meant for is there, and if the change has an id, it is a mini-service. -/
theorem exists_target (hw : Housed e.world) (h : Means e.world change (.ok cell)) :
    ∃ c, e.world.cell? cell = some c ∧ (change.id ≠ none → c.isMini = true) := by
  cases h with
  | component hm hid =>
    obtain ⟨c, hc, -⟩ := hw.houses _ (Roster.mem_of_member? hm).1
    exact ⟨c, hc, fun h => absurd hid h⟩
  | pooled hm hid hmanager hc hpooled hmini =>
    obtain ⟨c, hc, hmini⟩ := exists_mini (owner_of_pooled hc hpooled hmini)
    exact ⟨c, hc, fun _ => hmini⟩

theorem suits_reach (others : World K → World K → Prop) (hc : e.world.cell? cell = some c)
    (hacts : change.toDestroy = true ∨ change.toBuild = true) :
    (reach B others e.world change cell).Suits e.world where
  size_le := Nat.le_refl _
  confined := by
    refine ⟨c.bare, bare?_of_cell? hc, ?_⟩
    show (reach B others e.world change cell).Confines c.inner
    cases hinner : c.inner with
    | service s =>
      refine ⟨fun x hx => ⟨hacts, c, s, hc, hinner, .inr ⟨?_, hx⟩⟩,
        fun x hx => ⟨hacts, c, s, hc, hinner, .inl hx⟩⟩
      have hfits := e.fits cell (.service s) (by rw [hc, Option.map_some, hinner])
      obtain ⟨d, hd, hmini⟩ := exists_mini (hfits.2.minis hx)
      rw [holdsMini, hd, Option.any_some, hmini]
    | mini m => trivial

end Estate

namespace Fleet

variable {B : Bounds K} {others : World K → World K → Prop} {w : World K} {change : Change}
  {cell : CellId}

/-- A change that is carried out on a cell has left everything else alone so far. -/
structure Contained (B : Bounds K) (others : World K → World K → Prop) (w : World K)
    (change : Change) (cell : CellId) (calls : Calls K) (v : World K) : Prop where
  roster : v.roster = w.roster
  /-- No hooks were run but of the cell and, if it is a manager, of its mini-services. -/
  calls : ∀ call ∈ calls, ∃ x, call.1.cell? = some x ∧ (x = cell ∨ x ∈ pool B w change cell)
  /-- The other components are as they were before, if all others leave them so. -/
  components : ∀ m ∈ w.roster.members, m.cell ≠ cell → (∀ u v, others u v → Guards m.cell u v) →
    Guards m.cell w v
  /-- So are all mini-services but those of the cell, if it is a manager. -/
  beside : ∀ x, x ≠ cell → x ∉ pool B w change cell → (∀ u v, others u v → Guards x u v) →
    Guards x w v
  /-- The manager of a mini-service stands where it stood and has the same ones pooled. -/
  manager : change.id ≠ none → ∀ m c, w.roster.find change.component = .ok m →
    w.cell? m = some c →
    ∃ d, v.cell? m = some d ∧ d.standing = c.standing ∧ d.pooled = c.pooled

variable {ds : List (Registry.Descriptor (Factory K))} {registry : Registry K} {config : Config}

theorem mem_spared (hw : Housed w) (hothers : ∀ u v, others u v → Awaits w change u v)
    {x : CellId} (hx : w.roster.find change.component = .ok x) (hne : x ≠ cell) :
    x ∈ (reach B others w change cell).spared := by
  refine ⟨hne, ?_, fun u v h => (hothers u v h).named x hx⟩
  obtain ⟨m, hm, rfl⟩ := Roster.find_eq_ok_iff.1 hx
  exact not_mem_pool hw (Roster.mem_of_member? hm).1

theorem contained_of_tends {calls : Calls K} {v : World K} (hw : Housed w)
    (hothers : ∀ u v, others u v → Awaits w change u v)
    (htends : (reach B others w change cell).Tends w v)
    (hcalls : ∀ call ∈ calls, (reach B others w change cell).terms.may call.1 call.2)
    (hid : change.id ≠ none → ∃ c, w.cell? cell = some c ∧ c.isMini = true) :
    Contained B others w change cell calls v where
  roster := htends.keeps.roster
  calls call hcall := by
    obtain ⟨x, hx, hwhat⟩ := hcalls call hcall
    exact ⟨x, hwhat, hx⟩
  components m hm hne hguards := htends.guards m.cell ⟨hne, not_mem_pool hw hm, hguards⟩
  beside x hne hx hguards := htends.guards x ⟨hne, hx, hguards⟩
  manager hidne m c hfind hc := by
    obtain ⟨d, hd, hmini⟩ := hid hidne
    have hne : m ≠ cell := by
      rintro rfl
      obtain ⟨member, hmember, rfl⟩ := Roster.find_eq_ok_iff.1 hfind
      obtain ⟨d', hd', -, hservice⟩ := hw.houses member (Roster.mem_of_member? hmember).1
      obtain rfl : d = d' := Option.some.inj (hd.symm.trans hd')
      rw [hservice] at hmini
      cases hmini
    have hguards := htends.guards m (mem_spared hw hothers hfind hne)
    obtain ⟨c', hc', -, hsame⟩ := hguards.exists_like hc
    exact ⟨c', hc', hsame⟩

theorem allows_apply_reach {e : Estate B} {c : Cell K} (hw : Housed e.world)
    (hothers : ∀ u v, others u v → Awaits e.world change u v)
    (hcell : Means e.world change (.ok cell)) (hc : e.world.cell? cell = some c) :
    (reach B others e.world change cell).Allows (apply change) e.world := by
  refine allows_apply hw ((means_meant hw change).unique hcell)
    (fun u v h => ⟨h.keeps, fun x hx => ?_, fun x hx => ?_⟩) (Estate.suits_reach others hc)
    fun hbuild hpolicy => ⟨hbuild, hpolicy⟩
  · by_cases hne : x = cell
    · exact hne ▸ h.cell
    · exact h.guards x (mem_spared hw hothers hx hne)
  · obtain rfl := Except.ok.inj (hcell.unique hx)
    exact h.cell

/-- In a fleet that was started once and then used in whatever way, a change is meant for exactly
one thing. If there is a fault instead of a cell, then the change is answered with it, no hook is
run, and nothing changes but what others change. If there is a cell, then the change can come to its
end, unless its build aborts and the process is to be ended then. All along, everything else is left
alone: the other components and mini-services, the manager of the cell and what it has pooled, and
who belongs to the fleet; only a manager that is itself torn down or built may do so with its own
mini-services. In the end the cell is where the change leaves it, and if the change fails then that
is unavailable and not built. -/
theorem change_stays_with_its_cell (hregistry : Registry.empty.registerAll ds = .ok registry)
    (hconfined : ∀ d ∈ registry.descriptors, d.IsConfined B)
    (hw : Reached B registry config w) (hothers : ∀ u v, others u v → Awaits w change u v) :
    (∃! goal, Means w change goal) ∧
    (∀ fault, Means w change (.error fault) →
      Yields others (apply change) w (fun calls r v =>
        r = .error fault ∧ calls = [] ∧ Relation.ReflTransGen others w v)) ∧
    ∀ cell, Means w change (.ok cell) → ∃ c, w.cell? cell = some c ∧
      (change.id ≠ none → c.isMini = true ∧ pool B w change cell = ∅) ∧
      ∀ calls q v, Runs others (apply change) w calls q v →
        ((∃ later r u, Runs others q v later (.done r) u) ∨
          change.toBuild = true ∧ w.config.abortPolicy = .exit) ∧
        Contained B others w change cell calls v ∧
        ∀ r, q = .done r → Carried change c cell r v := by
  have hnames : registry.names.Nodup := Registry.nodup_names_registerAll hregistry List.nodup_nil
  obtain ⟨e, rfl⟩ := hw.exists_estate hnames hconfined
  have hhoused := (hw.stems hnames).housed
  have hmeans := means_meant hhoused change
  refine ⟨⟨_, hmeans, fun _ h => h.unique hmeans⟩, fun fault hfault => ?_, fun cell hcell => ?_⟩
  · have herror := meets_apply_of_error hhoused hothers (hmeans.unique hfault)
    exact herror.yields (fun _ _ h => .single h) fun h => h
  obtain ⟨c, hc, hid⟩ := Estate.exists_target hhoused hcell
  refine ⟨c, hc, fun h => ⟨hid h, pool_eq_empty hc (hid h)⟩, fun calls q v run => ?_⟩
  have hawaits {u v : World K} (h : others u v) :
      (reach B others e.world change cell).Awaits u v :=
    ⟨(hothers u v h).keeps, (hothers u v h).meant cell hcell, fun x hx => hx.2.2 u v h⟩
  -- The run is followed twice: for how far it reaches, and for where it leaves the cell in the end.
  have hrun := (run.weaken fun _ _ => hawaits).meets (allows_apply_reach hhoused hothers hcell hc)
  refine ⟨?_, contained_of_tends hhoused hothers hrun.1 hrun.2.1 fun h => ⟨c, hc, hid h⟩, ?_⟩
  · obtain ⟨later, q', u, rest, ⟨r, rfl⟩ | ⟨code, next, rfl⟩⟩ := exists_runs_to_end others q v
    · exact .inl ⟨later, r, u, rest⟩
    · exact .inr ((rest.weaken fun _ _ => hawaits).exits hrun.2.2)
  · rintro r rfl
    exact (run.weaken hothers).ends (meets_apply hhoused hcell hc)

section Office

open Rehearsal

/-- A desk, and an office with a link to it that keeps two clerks. A second build of one of these
aborts. -/
def deskAndOffice : List (Registry.Descriptor (Factory kit)) :=
  let desk : Casting := { label := "desk", role := .probe { label := "desk" } [] [] }
  let clerks : List Entity :=
    [{ id := "ann" }, { id := "bob", queue := [⟨"ok", none⟩, ⟨"abort", some "gone"⟩] }]
  let office : Casting :=
    { label := "office"
      role := .manager { label := "office", store := .empty "office", batches := [clerks] } }
  [⟨.concrete "desk" desk.factory, none⟩,
    ⟨((Registry.Blueprint.concrete "office" office.factory).link { target := "desk" }).manager,
      none⟩]

theorem isConfined_deskAndOffice : ∀ d ∈ deskAndOffice, d.IsConfined bounds := by
  intro d hd ctx factory isManager hkind
  rcases List.mem_cons.1 hd with rfl | hd
  · obtain ⟨rfl, -⟩ := Registry.Kind.concrete.inj hkind
    exact Casting.isConfined_factory trivial
  · obtain rfl := List.mem_singleton.1 hd
    obtain ⟨rfl, -⟩ := Registry.Kind.concrete.inj hkind
    exact Casting.isConfined_factory rfl

theorem reached_deskAndOffice :
    Reached bounds ⟨deskAndOffice⟩ {} (after (start ⟨deskAndOffice⟩ {}) {}) := by
  have hstarts : (alone (start ⟨deskAndOffice⟩ {}) {}).map (fun run => run.2.1) =
      some (.ok ()) := rfl
  obtain ⟨⟨calls, _, w⟩, hrun, rfl⟩ := Option.map_eq_some_iff.1 hstarts
  rw [after, hrun]
  exact .start rfl rfl (runs_alone hrun)

/-- A clerk is to be torn down and built again. -/
def rebuildBob : Change := (((Change.assign "office" .degraded).mini "bob").destroy).build .admin

theorem change_stays_with_its_cell_bob :
    let w := after (start ⟨deskAndOffice⟩ {}) {}
    ∃ calls reason v, Runs (· = ·) (apply rebuildBob) w calls
        (.done (.error (.buildAborted "bob" reason))) v ∧
      Contained bounds (· = ·) w rebuildBob 3 calls v ∧ (∀ x, x ≠ 3 → Guards x w v) ∧
      ∃ s, v.face? 3 = some ⟨"bob", true, s⟩ ∧ s.status = .unavailable ∧ s.built = false := by
  intro w
  have hregistry : Registry.empty.registerAll deskAndOffice = .ok ⟨deskAndOffice⟩ := rfl
  have hawaits : ∀ u v, u = v → Awaits w rebuildBob u v := fun u _ h => h ▸ .refl w rebuildBob u
  obtain ⟨-, -, hcells⟩ := change_stays_with_its_cell hregistry isConfined_deskAndOffice
    reached_deskAndOffice hawaits
  have hmeant : meant w rebuildBob = .ok 3 := by decide +kernel
  have hmeans : Means w rebuildBob (.ok 3) :=
    hmeant ▸ means_meant (reached_deskAndOffice.stems (by decide)).housed rebuildBob
  obtain ⟨c, hc, hid, hruns⟩ := hcells 3 hmeans
  have haborts : (alone (apply rebuildBob) w).map (fun run => run.2.1) =
      some (.error (.buildAborted "bob" "build aborted: gone")) := by decide +kernel
  have hbob : (w.cell? 3).map (fun c => (c.name, c.isMini)) = some ("bob", true) := by
    decide +kernel
  obtain ⟨⟨calls, _, v⟩, hrun, rfl⟩ := Option.map_eq_some_iff.1 haborts
  obtain ⟨-, hcontained, hcarried⟩ := hruns calls _ v (runs_alone hrun)
  refine ⟨calls, _, v, runs_alone hrun, hcontained, fun x hx => ?_, ?_⟩
  · refine hcontained.beside x hx ?_ fun u v (h : u = v) => h ▸ .refl x u
    rw [(hid (by decide)).2]
    exact Set.notMem_empty x
  · obtain ⟨-, s, hs, hdown⟩ := (hcarried _ rfl).aborted _ rfl
    rw [hc, Option.map_some, Option.some.injEq, Prod.mk.injEq] at hbob
    rw [hbob.1, hbob.2] at hs
    exact ⟨s, hs, hdown⟩

end Office

end Fleet

end Steward
