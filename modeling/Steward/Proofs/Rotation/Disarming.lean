import Steward.Proofs.Rotation.Chores
/-!
What a teardown leaves of the timer of a cell. A build that is let in before the teardown arms its
timer when it has given the lock up, perhaps long after the teardown has cancelled what timer there
was. So a teardown that has returned has left no timer if every build that was of use had returned
when the teardown was called, but not always if a build was on its way.
-/
namespace Steward

open Steward.Action Telling World

variable {K : Kit} {ρ : Type}

namespace Cell

/-- So far a build pass of a task was of use, and its build has not returned. -/
def UnderWay (t : TaskId) (log : List (TaskId × Word)) : Prop :=
  ∃ before word after, log = before ++ (t, word) :: after ∧ word.isUsablePass = true ∧
    ∀ op, (t, Word.returned op) ∉ after

def Overlaps (before after : List (TaskId × Word)) : Prop :=
  (∃ u, UnderWay u before) ∨ ∃ entry ∈ after, entry.2.isUsablePass = true

section Logs

variable {t u : TaskId} {log before after : List (TaskId × Word)} {entry : TaskId × Word}

theorem underWay_concat {word : Word} (h : word.isUsablePass = true) :
    UnderWay t (log ++ [(t, word)]) := ⟨log, word, [], rfl, h, fun _ => List.not_mem_nil⟩

theorem UnderWay.exists_mem (h : UnderWay t log) : ∃ word, (t, word) ∈ log := by
  obtain ⟨before, word, after, rfl, -, -⟩ := h
  exact ⟨word, List.mem_append_right _ List.mem_cons_self⟩

theorem not_underWay_returned (log : List (TaskId × Word)) (op : Operation) :
    ¬ UnderWay t (log ++ [(t, .returned op)]) := by
  rintro ⟨before, word, after, heq, hword, hafter⟩
  rcases List.eq_nil_or_concat' after with rfl | ⟨after, entry, rfl⟩
  · obtain ⟨-, hlast⟩ := List.append_inj' heq rfl
    cases hlast
    cases hword
  · have hsplit : log ++ [(t, Word.returned op)] = (before ++ (t, word) :: after) ++ [entry] := by
      rw [List.append_assoc]
      exact heq
    obtain ⟨-, hlast⟩ := List.append_inj' hsplit rfl
    cases hlast
    exact hafter op (List.mem_append_right _ (List.mem_singleton_self _))

theorem UnderWay.concat (h : UnderWay t log) (hne : ∀ op, entry ≠ (t, .returned op)) :
    UnderWay t (log ++ [entry]) := by
  obtain ⟨before, word, after, rfl, hword, hafter⟩ := h
  refine ⟨before, word, after ++ [entry], by simp, hword, fun op hop => ?_⟩
  rcases List.mem_append.1 hop with hop | hop
  · exact hafter op hop
  · exact hne op (List.mem_singleton.1 hop).symm

theorem UnderWay.overlaps (h : UnderWay t (before ++ after)) : Overlaps before after := by
  obtain ⟨xs, word, ys, heq, hword, hys⟩ := h
  rcases List.append_eq_append_iff.1 heq with ⟨zs, rfl, hafter⟩ | ⟨zs, rfl, hys'⟩
  · exact .inr ⟨(t, word), by simp [hafter], hword⟩
  · cases zs with
    | nil => exact .inr ⟨(t, word), by rw [← List.nil_append after, ← hys']; simp, hword⟩
    | cons z zs =>
      obtain ⟨rfl, rfl⟩ := List.cons.inj hys'
      exact .inl ⟨t, xs, word, zs, rfl, hword, fun op hop =>
        hys op (List.mem_append_left _ hop)⟩

theorem Overlaps.of_called (h : Overlaps before ((t, .called .destroy) :: after)) :
    Overlaps before after := by
  rcases h with h | ⟨x, hx, husable⟩
  · exact .inl h
  · rcases List.mem_cons.1 hx with rfl | hx
    · cases husable
    · exact .inr ⟨x, hx, husable⟩

theorem Overlaps.concat (h : Overlaps before after) : Overlaps before (after ++ [entry]) :=
  h.imp_right fun ⟨x, hx, husable⟩ => ⟨x, List.mem_append_left _ hx, husable⟩

theorem isUsablePass_of_chore {word : Word} (h : word.chore = .arm) : word.isUsablePass = true := by
  unfold Word.chore at h
  split at h
  · cases h
  · split at h
    · assumption
    · cases h

end Logs

/-- All tasks do with the timer of a cell what they are due to do. A timer that is armed once a
teardown has cancelled what there was is due to a build that was not over when the teardown was
called. -/
structure Dutiful (id : CellId) (isMini : Bool) (crowd : Crowd K Word) (chore : TaskId → Chore) :
    Prop where
  heeds : ∀ t, Heeds id isMini (crowd.tasks t) (fun _ chore => chore = .none) (chore t)
  isMini : crowd.world.isMini? id = some isMini
  slots : crowd.world.Slots id
  underWay : ∀ t, chore t = .arm → UnderWay t crowd.log
  overlaps : ∀ before t after, crowd.log = before ++ (t, .called .destroy) :: after →
    (chore t = .cancel → (t, .returned .destroy) ∈ after) →
      ∀ task, crowd.world.Armed id task → Overlaps before after

namespace Dutiful

variable {id : CellId} {isMini : Bool} {crowd crowd' : Crowd K Word} {chore : TaskId → Chore}
  {t : TaskId} {p : Telling K Word Unit} {w : World K} {locks : CellId → Lock}

theorem heeds_advance (h : Dutiful id isMini crowd chore) {told : List Word} {next : Chore}
    (hp : Heeds id isMini p (fun _ chore => chore = .none) next) (u : TaskId) :
    Heeds id isMini ((crowd.advance t told p w locks).tasks u) (fun _ chore => chore = .none)
      (Function.update chore t next u) := by
  show Heeds id isMini (Function.update crowd.tasks t p u) _ _
  obtain rfl | hu := eq_or_ne u t
  · rwa [Function.update_self, Function.update_self]
  · rw [Function.update_of_ne hu, Function.update_of_ne hu]
    exact h.heeds u

theorem leave (h : Dutiful id isMini crowd chore) (hleaves : LeavesTimer id crowd.world w)
    (hp : Heeds id isMini p (fun _ chore => chore = .none) (chore t)) :
    Dutiful id isMini (crowd.advance t [] p w locks) chore where
  heeds := Function.update_eq_self t chore ▸ h.heeds_advance hp
  isMini := hleaves.isMini.trans h.isMini
  slots := hleaves.slots h.slots
  underWay u hu := by
    rw [Crowd.log_advance_nil]
    exact h.underWay u hu
  overlaps before u after hlog hcalled task harmed := by
    rw [Crowd.log_advance_nil] at hlog
    exact h.overlaps before u after hlog hcalled task (hleaves.armed harmed)

theorem cancel (h : Dutiful id isMini crowd chore) (ht : chore t = .cancel)
    (hp : Heeds id isMini p (fun _ chore => chore = .none) .none) :
    Dutiful id isMini (crowd.advance t [] p (crowd.world.cancelTimer id) locks)
      (Function.update chore t .none) where
  heeds := h.heeds_advance hp
  isMini := (isMini?_cancelTimer crowd.world id id).trans h.isMini
  slots := h.slots.cancelTimer
  underWay u hu := by
    have hne : u ≠ t := by
      rintro rfl
      rw [Function.update_self] at hu
      cases hu
    rw [Function.update_of_ne hne] at hu
    rw [Crowd.log_advance_nil]
    exact h.underWay u hu
  overlaps _ _ _ _ _ _ harmed := absurd harmed h.slots.not_armed_cancelTimer

/-- A build arms a timer that has not returned, so it was under way when any teardown was called
before, or came to its pass later. -/
theorem arm (h : Dutiful id isMini crowd chore) (ht : chore t = .arm)
    (hp : Heeds id isMini p (fun _ chore => chore = .none) .arm) :
    Dutiful id isMini (crowd.advance t [] p (crowd.world.armTimer id) locks) chore where
  heeds := by
    rw [← ht] at hp
    exact Function.update_eq_self t chore ▸ h.heeds_advance hp
  isMini := (isMini?_armTimer crowd.world id id).trans h.isMini
  slots := h.slots.armTimer (by rw [h.isMini, Option.isSome_some])
  underWay u hu := by
    rw [Crowd.log_advance_nil]
    exact h.underWay u hu
  overlaps before u after hlog _ _ _ := by
    rw [Crowd.log_advance_nil] at hlog
    exact (hlog ▸ h.underWay t ht).overlaps.of_called

theorem tell (h : Dutiful id isMini crowd chore) {word : Word} (hmay : (chore t).MayTell word)
    (hp : Heeds id isMini p (fun _ chore => chore = .none) word.chore) :
    Dutiful id isMini (crowd.advance t [word] p crowd.world locks)
      (Function.update chore t word.chore) where
  heeds := h.heeds_advance hp
  isMini := h.isMini
  slots := h.slots
  underWay u hu := by
    obtain rfl | hne := eq_or_ne u t
    · rw [Function.update_self] at hu
      exact underWay_concat (isUsablePass_of_chore hu)
    · rw [Function.update_of_ne hne] at hu
      exact (h.underWay u hu).concat fun op hop => hne (congrArg Prod.fst hop).symm
  overlaps before u after hlog hcalled task harmed := by
    rcases List.eq_nil_or_concat' after with rfl | ⟨after, entry, rfl⟩
    · obtain ⟨-, hword⟩ := List.append_inj' hlog rfl
      cases hword
      rw [Function.update_self] at hcalled
      cases hcalled rfl
    · have hsplit : crowd.log ++ [(t, word)] =
          (before ++ (u, .called .destroy) :: after) ++ [entry] := by
        rw [List.append_assoc]
        exact hlog
      obtain ⟨hbefore, hentry⟩ := List.append_inj' hsplit rfl
      obtain rfl : (t, word) = entry := List.singleton_inj.1 hentry
      refine (h.overlaps before u after hbefore (fun hu => ?_) task harmed).concat
      have hne : u ≠ t := by
        rintro rfl
        rw [hu] at hmay
        exact hmay
      rw [Function.update_of_ne hne] at hcalled
      rcases List.mem_append.1 (hcalled hu) with hmem | hmem
      · exact hmem
      · exact absurd (congrArg Prod.fst (List.mem_singleton.1 hmem)) hne

variable {others : World K → World K → Prop}

theorem step (h : Dutiful id isMini crowd chore)
    (hothers : ∀ u v, others u v → LeavesTimer id u v) (hstep : Crowd.Step others crowd crowd') :
    ∃ chore', Dutiful id isMini crowd' chore' := by
  cases hstep with
  | others hw =>
    have hleaves := hothers _ _ hw
    exact ⟨chore, h.heeds, hleaves.isMini.trans h.isMini, hleaves.slots h.slots, h.underWay,
      fun before t after hlog hcalled task harmed =>
        h.overlaps before t after hlog hcalled task (hleaves.armed harmed)⟩
  | task t hmoves =>
    have hheeds := h.heeds t
    generalize crowd.tasks t = p at hmoves hheeds
    cases hmoves with
    | update =>
      obtain ⟨next, hwrites, hnext⟩ := hheeds _ h.isMini
      generalize hchore : chore t = before at hwrites
      cases hwrites with
      | leaves _ hleaves =>
        subst hchore
        exact ⟨chore, h.leave hleaves hnext⟩
      | cancels hw =>
        rw [hw]
        exact ⟨_, h.cancel hchore hnext⟩
      | arms hw =>
        rw [hw]
        exact ⟨chore, h.arm hchore hnext⟩
    | invoke => exact ⟨chore, h.leave (.refl id _) (hheeds _ h.isMini)⟩
    | acquire hallows => exact ⟨chore, h.leave (.refl id _) hheeds⟩
    | release => exact ⟨chore, h.leave (.refl id _) hheeds⟩
    | rest => exact ⟨chore, h.leave (.refl id _) hheeds⟩
    | restUnlessCancelled isCancelled => exact ⟨chore, h.leave (.refl id _) (hheeds isCancelled)⟩
    | tell => exact ⟨_, h.tell hheeds.1 hheeds.2⟩

end Dutiful

section Gathering

variable {id : CellId} {w : World K} {locks : CellId → Lock} {others : World K → World K → Prop}

theorem dutiful_summonTelling {isMini : Bool} (hid : w.isMini? id = some isMini)
    (hslots : w.Slots id) (tasks : Requests K ρ) :
    Dutiful id isMini (summonTelling id tasks w locks) fun _ => .none where
  heeds t := Fulfils.interpret fulfils_calling (tasks t)
  isMini := hid
  slots := hslots
  underWay _ h := Chore.noConfusion h
  overlaps before t after hlog := by simp [summonTelling] at hlog

/-- However many tasks build and destroy one cell, and assign, rotate, call and look at it, in
whatever order their steps are taken: when a teardown has returned, no timer of the cell is armed,
unless a build pass was of use whose build had not returned when the teardown was called. The tasks
tell so while they do the same as they always do. -/
theorem returned_destroy_leaves_no_timer {d : Cell K} (hd : w.cell? id = some d)
    (hslots : w.Slots id) (hothers : ∀ u v, others u v → LeavesTimer id u v)
    (tasks : Requests K ρ) :
    (∀ crowd, (summonTelling id tasks w locks).Becomes others crowd →
      ∀ before t after, crowd.log = before ++ (t, .called .destroy) :: after →
        (t, .returned .destroy) ∈ after → (∀ u, ¬ UnderWay u before) →
          (∀ entry ∈ after, entry.2.isUsablePass = false) →
            ∀ task, ¬ crowd.world.Armed id task) ∧
    ∀ quiet, (summon id tasks w locks).Becomes others quiet →
      ∃ crowd, (summonTelling id tasks w locks).Becomes others crowd ∧ crowd.mute = quiet := by
  have hid : w.isMini? id = some d.isMini := by rw [isMini?, hd, Option.map_some]
  refine ⟨fun crowd run before t after hlog hreturned hbefore hafter task harmed => ?_,
    fun quiet run => ?_⟩
  · let P (crowd : Crowd K Word) := ∃ chore, Dutiful id d.isMini crowd chore
    have hdutiful : P crowd :=
      run.induct ⟨_, dutiful_summonTelling hid hslots tasks⟩ fun h step =>
        h.elim fun _ h => h.step hothers step
    obtain ⟨chore, h⟩ := hdutiful
    rcases h.overlaps before t after hlog (fun _ => hreturned) task harmed with
      ⟨u, hu⟩ | ⟨entry, hentry, husable⟩
    · exact hbefore u hu
    · exact Bool.noConfusion ((hafter entry hentry).symm.trans husable)
  · rw [← mute_summonTelling] at run
    exact Crowd.exists_becomes_of_mute run

end Gathering

def ledger : Cell Rehearsal.kit where
  name := "db"
  inner := .service (.tenant { label := "db", slot := .empty "db" .zero, policy := default })
  rotates := true

def buildAndDestroy : Requests Rehearsal.kit Unit
  | 0 => (fun _ => ()) <$> Program.ask (Request.build .boot)
  | 1 => (fun _ => ()) <$> Program.ask Request.destroy
  | _ => return ()

def ledgerCrowd : Crowd Rehearsal.kit Word :=
  summonTelling 0 buildAndDestroy { cells := #[ledger] } fun _ => .free

def ledgerBuilt : Word := .told (.done (.build .boot) (.built ⟨"db", .boot, [], none⟩ .ok))

theorem returned_destroy_leaves_no_timer_ledger : ∃ crowd,
    ledgerCrowd.Becomes (LeavesTimer 0) crowd ∧ crowd.world.launched = [(0, 0)] ∧
      crowd.log.getLast? = some (1, .returned .destroy) ∧ ∀ task, ¬ crowd.world.Armed 0 task := by
  let crowd := ledgerCrowd.following (List.replicate 40 0 ++ List.replicate 40 1)
  have hlog : crowd.log = [(0, .called (.build .boot)), (0, .told (.begun (.build .boot))),
      (0, ledgerBuilt), (0, .returned (.build .boot))] ++ (1, .called .destroy) ::
        [(1, .told (.begun .destroy)), (1, .told (.done .destroy .destroyed)),
          (1, .returned .destroy)] := by decide +kernel
  have hslots : World.Slots { cells := #[ledger] } 0 := slots_of_forall_notMem (by simp)
  have hbefore : ∀ u, ¬ UnderWay u [(0, .called (.build .boot)),
      (0, .told (.begun (.build .boot))), (0, ledgerBuilt), (0, .returned (.build .boot))] := by
    intro u hu
    obtain ⟨word, hmem⟩ := hu.exists_mem
    obtain rfl : u = 0 := by
      simp only [List.mem_cons, Prod.mk.injEq, List.not_mem_nil, or_false] at hmem
      rcases hmem with h | h | h | h <;> exact h.1
    exact not_underWay_returned [_, _, _] _ hu
  refine ⟨crowd, Crowd.becomes_following _ _, by decide +kernel, by rw [hlog]; rfl, ?_⟩
  exact (returned_destroy_leaves_no_timer (d := ledger) rfl hslots (fun _ _ h => h)
    buildAndDestroy).1 crowd (Crowd.becomes_following _ _) _ 1 _ hlog (by simp) hbefore (by decide)

/-- A database is destroyed while it is built. The teardown cancels what timer there is, and waits
for the build, which arms one; and when the teardown has returned, that one is armed. -/
theorem awaited_destroy_may_leave_timer : ¬ ∀ crowd, ledgerCrowd.Becomes (LeavesTimer 0) crowd →
    ∀ before t after, crowd.log = before ++ (t, .told (.begun .destroy)) :: after →
      (t, .told (.done .destroy .destroyed)) ∈ after →
        after.getLast? = some (t, .returned .destroy) →
          (∀ entry ∈ after, entry.2.isUsablePass = false) →
            ∀ task, ¬ crowd.world.Armed 0 task := by
  intro hall
  let crowd := ledgerCrowd.following (List.replicate 6 0 ++ List.replicate 2 1 ++
    List.replicate 40 0 ++ List.replicate 40 1)
  have hlog : crowd.log = [(0, .called (.build .boot)), (0, .told (.begun (.build .boot))),
      (1, .called .destroy), (0, ledgerBuilt), (0, .returned (.build .boot))] ++
        (1, .told (.begun .destroy)) ::
          [(1, .told (.done .destroy .destroyed)), (1, .returned .destroy)] := by decide +kernel
  have harmed : (0, 0) ∈ crowd.world.launched ∧ 0 ∉ crowd.world.cancelled := by decide +kernel
  exact hall crowd (Crowd.becomes_following _ _) _ 1 _ hlog (by simp) rfl (by decide) 0 harmed

end Cell

end Steward
