import Steward.Fleet.Conduct
import Steward.Proofs.Cell.Gate
/-!
A cell that was torn down. Whatever was done to it before, a teardown leaves nothing of it built or
closed. What was torn down already is not torn down again, so a status that was assigned to it in
the meantime stays.
-/
namespace Steward

open Steward.Action World

variable {K : Kit}

namespace Standing

structure IsDestroyed (s : Standing) : Prop where
  phase : s.phase = .destroyed
  destroyed : s.destroyed = true
  built : s.built = false
  disabled : s.disabled = []

theorem isDestroyed_endDestroy (s : Standing) : s.endDestroy.IsDestroyed := ⟨rfl, rfl, rfl, rfl⟩

theorem IsDestroyed.assign {s : Standing} (h : s.IsDestroyed) (status : Status) :
    (s.assign status).IsDestroyed :=
  ⟨h.phase, h.destroyed, h.built, h.disabled⟩

end Standing

namespace Change

/-- What a state change does to the cell that it is for, ahead of its build. -/
def operations (change : Change) : List Cell.Operation :=
  .setStatus change.status :: if change.toDestroy then [.destroy] else []

end Change

namespace Cell

variable {id : CellId} {history : List Deed} {s : Standing} {name : String}

theorem Accords.status_of_destroyed (h : Accords history s)
    (hpass : lastPass? history = some .destroyed) :
    s.status = (assignedSince? history).getD .unavailable := by
  rw [h.status, lastStatus?_eq, hpass]
  cases assignedSince? history <;> rfl

theorem Does.isDestroyed {op : Operation} {deed : Deed} {s' : Standing}
    (hdoes : Does name op s deed s') (h : s.destroyed = true → s.IsDestroyed)
    (hdestroyed : s'.destroyed = true) : s'.IsDestroyed := by
  cases hdoes with
  | build ending elapsedMillis finishedAt hname htoken => cases hdestroyed
  | destroy hstanding => exact Standing.isDestroyed_endDestroy _
  | destroyAgain hagain => exact h hagain
  | setStatus s status => exact (h hdestroyed).assign status
  | rotate status hstanding => exact (h hdestroyed).assign status
  | idle s => exact h hdestroyed

theorem Does.destroys {deed : Deed} {s' : Standing} (hdoes : Does name .destroy s deed s')
    (h : s.destroyed = true → s.IsDestroyed) :
    s'.IsDestroyed ∧ s'.status = if s.destroyed then s.status else .unavailable := by
  cases hdoes with
  | destroy hstanding =>
    rw [hstanding]
    exact ⟨Standing.isDestroyed_endDestroy _, rfl⟩
  | destroyAgain hagain =>
    rw [hagain]
    exact ⟨h hagain, rfl⟩

/-- The cell is seen to be torn down, and in a given status. -/
def ShowsDestroyed (c : Cell K) (id : CellId) (status : Status) (w : World K) : Prop :=
  ∃ s, w.face? id = some ⟨c.name, c.isMini, s⟩ ∧ s.IsDestroyed ∧ s.status = status

section Runs

variable {w : World K} {c : Cell K}

theorem meets_destroying (hid : w.face? id = some ⟨c.name, c.isMini, s⟩)
    (h : s.destroyed = true → s.IsDestroyed) :
    Meets (working id) (destroy id) (fun _ _ v =>
      ShowsDestroyed c id (if s.destroyed then s.status else .unavailable) v) w := by
  rw [← map_destroyTold, map_eq_pure_bind]
  refine Meets.seq (meets_destroyTold hid) fun _ deed v _ ⟨s', hv, hdoes⟩ => ?_
  exact Meets.pure fun u hu => ⟨s', hu _ hv, hdoes.destroys h⟩

/-- A run of operations leaves the cell where its history says, and torn down for good if at all. -/
theorem meets_recount_destroyed (hc : w.cell? id = some c) (hnew : c.standing = {})
    (ops : List Operation) :
    Meets (working id) (recount id ops) (fun _ history v => ∃ s,
      v.face? id = some ⟨c.name, c.isMini, s⟩ ∧ Accords history s ∧
        (s.destroyed = true → s.IsDestroyed)) w :=
  meets_recount_new hc hnew (P := fun history s =>
      Accords history s ∧ (s.destroyed = true → s.IsDestroyed))
    (fun _ _ _ _ _ _ h hdoes => ⟨h.1.does hdoes, hdoes.isDestroyed h.2⟩) ⟨accords_nil, nofun⟩

theorem meets_teardown (hc : w.cell? id = some c) (hnew : c.standing = {}) (ops : List Operation) :
    Meets (working id) (do
        let history ← recount id ops
        destroy id
        return history) (fun _ history v =>
      ShowsDestroyed c id (if lastPass? history = some .destroyed
        then (assignedSince? history).getD .unavailable else .unavailable) v) w := by
  refine Meets.seq (meets_recount_destroyed hc hnew ops) fun _ history v _ hdone => ?_
  obtain ⟨s, hv, haccords, hs⟩ := hdone
  refine Meets.seq (meets_destroying hv hs) fun _ _ u _ hdestroyed => ?_
  obtain ⟨s', hu, hdown, hstatus⟩ := hdestroyed
  refine Meets.pure fun x hx => ⟨s', hx _ hu, hdown, hstatus.trans ?_⟩
  exact ite_congr (propext haccords.destroyed) haccords.status_of_destroyed fun _ => rfl

theorem meets_removal (hc : w.cell? id = some c) (hnew : c.standing = {}) (ops : List Operation)
    {change : Change} (hchange : change.toDestroy = true) :
    Meets (working id) (do
        let history ← recount id ops
        Action.report (.applying change)
        conduct id change.operations
        return history) (fun _ history v =>
      ShowsDestroyed c id (if lastPass? history = some .destroyed
        then change.status else .unavailable) v) w := by
  refine Meets.seq (meets_recount_destroyed hc hnew ops) fun _ history v _ hdone => ?_
  obtain ⟨s, hv, haccords, hs⟩ := hdone
  refine Meets.report fun x hx => ⟨trivial, ?_⟩
  have hid : (x.report (.applying change)).face? id = some ⟨c.name, c.isMini, s⟩ :=
    hx _ hv
  simp only [Change.operations, hchange, if_true, conduct, List.forM_cons, List.forM_nil,
    Operation.run, bind_assoc, pure_bind]
  refine Meets.seq (meets_setStatus hid _) fun _ _ y _ hy => ?_
  refine Meets.seq (meets_destroying (s := s.assign change.status) hy fun h => (hs h).assign _)
    fun _ _ u _ hdestroyed => ?_
  obtain ⟨s', hu, hdown, hstatus⟩ := hdestroyed
  refine Meets.pure fun z hz => ⟨s', hz _ hu, hdown, hstatus.trans ?_⟩
  exact if_congr haccords.destroyed rfl rfl

end Runs

theorem apply_eq (change : Change) :
    (Fleet.apply change : Action K (Except Fault (Option Report))) = do
      match ← Fleet.target change with
      | .error fault => return .error fault
      | .ok cell =>
        Action.report (.applying change)
        conduct cell change.operations
        if change.toBuild then
          return (← Fleet.checkAbort (← build cell change.token)).map some
        else return .ok none := by
  unfold Fleet.apply
  refine bind_congr fun target => ?_
  cases target with
  | error fault => rfl
  | ok cell =>
    cases h : change.toDestroy <;>
      simp only [Change.operations, h, conduct, Operation.run, List.forM_cons, List.forM_nil,
        bind_assoc, pure_bind, if_true, Bool.false_eq_true, if_false]

/-- After a teardown of a cell that was new once, be it asked for as such or by a state change that
asks for no build, nothing of it is built, in whatever way it was used before. Its status is
unavailable, unless it was torn down already: then it is the status that was assigned last since,
if one was. -/
theorem teardown_leaves_destroyed {others : World K → World K → Prop} {w : World K} {c : Cell K}
    (hc : w.cell? id = some c) (hnew : c.standing = {})
    (hothers : ∀ u v, others u v → Spares id u v) (ops : List Operation) :
    (fun _ => ()) <$> (recount id ops : Action K (List Deed)) = conduct id ops ∧
    Yields others (do
        let history ← recount id ops
        destroy id
        return history) w (fun _ history v =>
      ShowsDestroyed c id (if lastPass? history = some .destroyed
        then (assignedSince? history).getD .unavailable else .unavailable) v) ∧
    ∀ change : Change,
      ((Fleet.apply change : Action K (Except Fault (Option Report))) = do
        match ← Fleet.target change with
        | .error fault => return .error fault
        | .ok cell =>
          Action.report (.applying change)
          conduct cell change.operations
          if change.toBuild then
            return (← Fleet.checkAbort (← build cell change.token)).map some
          else return .ok none) ∧
      (change.toDestroy = true → Yields others (do
          let history ← recount id ops
          Action.report (.applying change)
          conduct id change.operations
          return history) w (fun _ history v =>
        ShowsDestroyed c id (if lastPass? history = some .destroyed
          then change.status else .unavailable) v)) := by
  refine ⟨map_recount id ops, (meets_teardown hc hnew ops).yields hothers fun h => h, ?_⟩
  intro change
  refine ⟨apply_eq change, fun hchange => ?_⟩
  exact (meets_removal hc hnew ops hchange).yields hothers fun h => h

/-- An interface is built, torn down, and then told to be available. -/
def reassigning : List Operation := [.build .boot, .destroy, .setStatus .available]

def reassigned : List Deed :=
  [.built ⟨"api", .boot, ["send"], none⟩ .ok, .destroyed, .assigned .available]

/-- It is to be degraded, and to be torn down. -/
def removal : Change := (Change.assign "api" .degraded).destroy

theorem teardown_leaves_destroyed_api :
    (∃ calls v, Runs (Spares 0) (do
        let history ← recount 0 reassigning
        destroy 0
        return history) { cells := #[api] } calls (.done reassigned) v ∧
      ShowsDestroyed api 0 .available v) ∧
    ∃ calls v, Runs (Spares 0) (do
        let history ← recount 0 reassigning
        Action.report (.applying removal)
        conduct 0 removal.operations
        return history) { cells := #[api] } calls (.done reassigned) v ∧
      ShowsDestroyed api 0 .degraded v := by
  have hdestroys := teardown_leaves_destroyed (c := api) (w := { cells := #[api] }) rfl rfl
    (fun u v (h : Spares 0 u v) => h) reassigning
  constructor
  · have halone : (alone (do
        let history ← recount 0 reassigning
        destroy 0
        return history) { cells := #[api] }).map (·.2.1) = some reassigned := by decide +kernel
    obtain ⟨⟨calls, _, v⟩, hrun, rfl⟩ := Option.map_eq_some_iff.1 halone
    exact ⟨calls, v, runs_alone hrun, (hdestroys.2.1 calls _ v (runs_alone hrun)).2 _ rfl⟩
  · have halone : (alone (do
        let history ← recount 0 reassigning
        Action.report (.applying removal)
        conduct 0 removal.operations
        return history) { cells := #[api] }).map (·.2.1) = some reassigned := by decide +kernel
    obtain ⟨⟨calls, _, v⟩, hrun, rfl⟩ := Option.map_eq_some_iff.1 halone
    exact ⟨calls, v, runs_alone hrun,
      ((hdestroys.2.2 removal).2 rfl calls _ v (runs_alone hrun)).2 _ rfl⟩

theorem teardown_may_leave_available :
    ¬ Yields (Spares 0) (do
        conduct 0 reassigning
        destroy 0) { cells := #[api] } (fun _ _ v => ShowsDestroyed api 0 .unavailable v) := by
  intro hdown
  have halone : (alone (do
      conduct 0 reassigning
      destroy 0) { cells := #[api] }).map (fun run => (run.2.2.face? 0).map (·.standing.status)) =
        some (some .available) := by decide +kernel
  obtain ⟨⟨calls, ⟨⟩, v⟩, hrun, hstatus⟩ := Option.map_eq_some_iff.1 halone
  obtain ⟨s, hv, -, hs⟩ := (hdown calls _ v (runs_alone hrun)).2 _ rfl
  rw [hv, Option.map_some, hs] at hstatus
  cases hstatus

end Cell

end Steward
