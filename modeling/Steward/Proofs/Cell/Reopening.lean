import Steward.Proofs.Cell.Teardown
/-!
A cell whose last build pass was of no use. It is closed, and stays so as long as no rotation finds
its secret store well enough; for a rotation writes the status whatever the last pass came to. If
that pass failed without being aborted, the calls come in again then.
-/
namespace Steward

open Steward.Action World

variable {K : Kit}

namespace Cell

variable {id : CellId} {history : List Deed} {s : Standing} {name method : String}
  {asked : Scope} {ending : Ending}

def Deed.isBuild : Deed → Bool
  | .built _ _ => true
  | .destroyed | .assigned _ | .nothing => false

/-- The last build pass, whatever was torn down since. -/
def lastBuild? (history : List Deed) : Option Deed := (history.filter Deed.isBuild).getLast?

@[simp] theorem lastBuild?_concat (history : List Deed) (deed : Deed) :
    lastBuild? (history ++ [deed]) = if deed.isBuild then some deed else lastBuild? history := by
  cases h : deed.isBuild <;> simp [lastBuild?, h]

theorem lastPass?_of_lastBuild? {deed : Deed} (h : lastBuild? history = some deed) :
    lastPass? history = some deed ∨ lastPass? history = some .destroyed := by
  induction history using List.reverseRecOn with
  | nil => cases h
  | append_singleton history last ih =>
    cases last with
    | built asked ending =>
      rw [lastBuild?_concat] at h
      exact .inl ((lastPass?_concat _ _).trans h)
    | destroyed => exact .inr (lastPass?_concat _ _)
    | assigned status =>
      simpa [Deed.isBuild, Deed.isPass] using ih (by simpa [Deed.isBuild] using h)
    | nothing => simpa [Deed.isBuild, Deed.isPass] using ih (by simpa [Deed.isBuild] using h)

theorem eq_failure_or_abort {outcome : Outcome} (h : outcome.isUsable = false) :
    outcome = .failure ∨ outcome = .abort := by
  cases outcome <;> simp [Outcome.isUsable] at h ⊢

theorem statusWith_of_unusable {outcome : Outcome} (h : outcome.isUsable = false)
    (wish : Option Status) : outcome.statusWith wish = .unavailable := by
  rcases eq_failure_or_abort h with rfl | rfl <;> rfl

structure Rotated (history : List Deed) (s : Standing) : Prop extends Accords history s where
  unassigned : s.destroyed = true → assignedSince? history = none

theorem Rotated.does {op : Operation} {deed : Deed} {s' : Standing} (h : Rotated history s)
    (hop : ∀ status, op ≠ .setStatus status) (hdoes : Does name op s deed s') :
    Rotated (history ++ [deed]) s' := by
  refine ⟨h.toAccords.does hdoes, fun hdestroyed => ?_⟩
  rw [assignedSince?_concat]
  cases hdoes with
  | build ending elapsedMillis finishedAt hname htoken => cases hdestroyed
  | destroy hstanding => rfl
  | destroyAgain hagain => exact h.unassigned hagain
  | setStatus s status => exact absurd rfl (hop status)
  | rotate status hstanding => cases hstanding.symm.trans hdestroyed
  | idle s => exact h.unassigned hdestroyed

theorem Rotated.acceptsCalls_iff (h : Rotated history s)
    (hpass : lastBuild? history = some (.built asked ending))
    (hunusable : ending.outcome.isUsable = false) :
    s.status.acceptsCalls = true ↔ lastPass? history = some (.built asked ending) ∧
      ∃ status, assignedSince? history = some status ∧ status.acceptsCalls = true := by
  rw [h.status, lastStatus?_eq]
  rcases lastPass?_of_lastBuild? hpass with hlast | hlast
  · have hstatus : Deed.status? (.built asked ending) = some .unavailable :=
      congrArg some (statusWith_of_unusable hunusable _)
    rw [hlast, Option.bind_some, hstatus]
    cases assignedSince? history <;> simp [Status.acceptsCalls]
  · rw [hlast, h.unassigned (h.destroyed.2 hlast)]
    simp [Deed.status?, Status.acceptsCalls]

theorem Rotated.gate_eq_ok_iff (h : Rotated history s)
    (hpass : lastBuild? history = some (.built asked ending))
    (hunusable : ending.outcome.isUsable = false) :
    s.gate name method = .ok () ↔
      s.status.acceptsCalls = true ∧ ending.outcome = .failure ∧ method ∉ asked.disabled := by
  rw [Standing.gate_eq_ok_iff]
  constructor
  · rintro ⟨-, hbuilt, haccepts, hmethod⟩
    obtain ⟨hlast, -⟩ := (h.acceptsCalls_iff hpass hunusable).1 haccepts
    obtain ⟨_, _, hlast', hnoAbort⟩ := h.built.1 hbuilt
    cases hlast.symm.trans hlast'
    refine ⟨haccepts, ?_, (h.disabled _ _ hlast) ▸ hmethod⟩
    exact (eq_failure_or_abort hunusable).resolve_right hnoAbort
  · rintro ⟨haccepts, hfailure, hmethod⟩
    obtain ⟨hlast, -⟩ := (h.acceptsCalls_iff hpass hunusable).1 haccepts
    have hnoAbort : ending.outcome ≠ .abort := by simp [hfailure]
    have hstanding : s.destroyed ≠ true := fun hdestroyed => by
      cases hlast.symm.trans (h.destroyed.1 hdestroyed)
    exact ⟨Bool.eq_false_iff.2 hstanding, h.built.2 ⟨asked, ending, hlast, hnoAbort⟩, haccepts,
      (h.disabled _ _ hlast).symm ▸ hmethod⟩

section Runs

variable {w : World K} {c : Cell K}

theorem meets_status {face : Face} (hid : w.face? id = some face) :
    Meets (working id) (Cell.status id) (fun _ status v =>
      v.face? id = some face ∧ status = face.standing.status) w := by
  refine Meets.acquire (Meets.get fun u hu => Meets.release (Meets.pure fun v hv => ?_))
  have hface : u.face? id = some face := hu _ hid
  obtain ⟨c, hc, rfl⟩ := exists_cell_of_face? hface
  rw [hc]
  exact ⟨hv _ hface, rfl⟩

theorem meets_reopening (hc : w.cell? id = some c) (hnew : c.standing = {}) {ops : List Operation}
    (hops : ∀ op ∈ ops, ∀ status, op ≠ .setStatus status) (method : String) :
    Meets (working id) (do
        let history ← recount id ops
        let status ← Cell.status id
        let answer ← enter id method
        return (history, status, answer)) (fun _ (history, status, answer) _ =>
      ∀ asked ending, lastBuild? history = some (.built asked ending) →
        ending.outcome.isUsable = false →
          (status.acceptsCalls = true ↔ lastPass? history = some (.built asked ending) ∧
            ∃ written, assignedSince? history = some written ∧ written.acceptsCalls = true) ∧
          ((∃ d, answer = .ok d) ↔ status.acceptsCalls = true ∧
            ending.outcome = .failure ∧ method ∉ asked.disabled)) w := by
  have hrotated := meets_recount_new (P := Rotated) hc hnew
    (fun op hop _ _ _ _ h hdoes => h.does (hops op hop) hdoes) ⟨accords_nil, nofun⟩
  refine Meets.seq hrotated fun _ history v _ ⟨s, hv, hs⟩ => ?_
  refine Meets.seq (meets_status hv) fun _ status u _ ⟨hu, hstatus⟩ => ?_
  refine Meets.seq (meets_enter hu method) fun _ answer x _ hanswer => Meets.pure fun y hy => ?_
  intro asked ending hpass hunusable
  rw [hstatus]
  refine ⟨hs.acceptsCalls_iff hpass hunusable, ?_⟩
  have hgate : s.gate c.name method = .ok () ↔ _ := hs.gate_eq_ok_iff hpass hunusable
  rw [← hgate, ← hanswer]
  cases answer <;> simp [Except.map]

end Runs

/-- Nobody assigns a status to a cell that was new once, so that all that writes it between passes
are rotations. If the last build pass failed or was aborted, the cell is seen to accept calls only
if nothing was torn down since and the status that a rotation wrote last accepts them, and then it
is. A call is let in then if the pass was not aborted and did not close its method; otherwise none
is, whatever the store and its leases are. -/
theorem unusable_pass_closes_until_rotated {others : World K → World K → Prop} {w : World K}
    {c : Cell K} (hc : w.cell? id = some c) (hnew : c.standing = {})
    (hothers : ∀ u v, others u v → Spares id u v) {ops : List Operation}
    (hops : ∀ op ∈ ops, ∀ status, op ≠ .setStatus status) (method : String) :
    (fun _ => ()) <$> (recount id ops : Action K (List Deed)) = conduct id ops ∧
    Yields others (do
        let history ← recount id ops
        let status ← Cell.status id
        let answer ← enter id method
        return (history, status, answer)) w (fun _ (history, status, answer) _ =>
      ∀ asked ending, lastBuild? history = some (.built asked ending) →
        ending.outcome.isUsable = false →
          (status.acceptsCalls = true ↔ lastPass? history = some (.built asked ending) ∧
            ∃ written, assignedSince? history = some written ∧ written.acceptsCalls = true) ∧
          ((∃ d, answer = .ok d) ↔ status.acceptsCalls = true ∧
            ending.outcome = .failure ∧ method ∉ asked.disabled)) :=
  ⟨map_recount id ops, (meets_reopening hc hnew hops method).yields hothers fun h => h⟩

/-- A database of which the build always fails. -/
def database : Cell Rehearsal.kit where
  name := "db"
  inner := .service (.tenant {
    label := "db"
    slot := .empty "db" .zero
    policy := default
    build := some ⟨"failure", none⟩ })
  rotates := true

/-- It is built, and then its credential is replaced. -/
def outage : Action Rehearsal.kit (List Deed × Status × Except Refusal (Cell Rehearsal.kit)) := do
  let history ← recount 0 [.build .boot, .rotate]
  let status ← Cell.status 0
  let answer ← enter 0 "query"
  return (history, status, answer)

def afterOutage : List Deed :=
  [.built ⟨"db", .boot, [], none⟩ (.failed (.failure "db: failure")), .assigned .available]

theorem runs_outage : ∃ calls status answer v,
    Runs (Spares 0) outage { cells := #[database] } calls (.done (afterOutage, status, answer)) v ∧
      status = .available ∧ answer.isOk = true := by
  have halone : (alone outage { cells := #[database] }).map (fun run =>
      (run.2.1.1, run.2.1.2.1, run.2.1.2.2.isOk)) = some (afterOutage, .available, true) := by
    decide +kernel
  obtain ⟨⟨calls, ⟨_, status, answer⟩, v⟩, hrun, hend⟩ := Option.map_eq_some_iff.1 halone
  simp only [Prod.mk.injEq] at hend
  obtain ⟨rfl, hstatus, hanswer⟩ := hend
  exact ⟨calls, status, answer, v, runs_alone hrun, hstatus, hanswer⟩

theorem unusable_pass_closes_until_rotated_database : ∃ calls status answer v,
    Runs (Spares 0) outage { cells := #[database] } calls (.done (afterOutage, status, answer)) v ∧
      status.acceptsCalls = true ∧ ∃ d, answer = .ok d := by
  obtain ⟨calls, status, answer, v, run, -, -⟩ := runs_outage
  have hnone : ∀ op ∈ [Operation.build .boot, .rotate], ∀ status, op ≠ .setStatus status := by
    simp
  have hiff := ((unusable_pass_closes_until_rotated (c := database) rfl rfl
    (fun u v (h : Spares 0 u v) => h) hnone "query").2 calls _ v run).2 _ rfl _ _ rfl rfl
  have haccepts : status.acceptsCalls = true := hiff.1.2 ⟨rfl, .available, rfl, rfl⟩
  exact ⟨calls, status, answer, v, run, haccepts, hiff.2.2 ⟨haccepts, rfl, by simp⟩⟩

theorem failed_pass_may_reopen : ¬ Yields (Spares 0) outage { cells := #[database] }
    (fun _ (history, status, answer) _ =>
      ∀ asked ending, lastBuild? history = some (.built asked ending) →
        ending.outcome.isUsable = false →
          status.acceptsCalls = false ∧ ∃ refusal, answer = .error refusal) := by
  intro hclosed
  obtain ⟨calls, status, answer, v, run, rfl, -⟩ := runs_outage
  obtain ⟨hstatus, -⟩ := (hclosed calls _ v run).2 _ rfl _ _ rfl rfl
  cases hstatus

end Cell

end Steward
