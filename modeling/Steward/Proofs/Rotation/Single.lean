import Steward.Proofs.Rotation.Asking
import Steward.Proofs.Rotation.Disarming
/-!
One timer for a cell that rotates. Tasks build and destroy the cell, assign, rotate, call and look
at it, and every timer that was ever launched for it goes round after round beside them. Of all
those timers one is armed at most; it is the one of the last usable pass, until somebody comes to
cancel it or to arm another one; and no pass that is not of use arms any.
-/
namespace Steward

open Steward.Action Telling World

variable {K : Kit} {ρ : Type}

namespace Rotation

open Cell

def LastTold (t : TaskId) (tiding : Tiding) (log : List (TaskId × Tiding)) : Prop :=
  ∃ before after, log = before ++ (t, tiding) :: after ∧ ∀ word, (t, word) ∉ after

def Due (t : TaskId) (log : List (TaskId × Tiding)) : Prop :=
  ∃ tiding, LastTold t tiding log ∧ tiding.stint ≠ .idle

/-- Nobody was about to cancel the timer or to arm one after `before`, and nobody came to it in
`after`: no teardown was called, and no other pass of use was through. Builds may wait for the lock
meanwhile, and passes may fail. -/
structure Undisturbed (before after : List (TaskId × Tiding)) : Prop where
  before : ∀ u, ¬ Due u before
  after : ∀ entry ∈ after, entry.2.stint = .idle

section Logs

variable {t u : TaskId} {tiding pass : Tiding} {log before after : List (TaskId × Tiding)}
  {entry : TaskId × Tiding}

theorem lastTold_concat : LastTold t tiding (log ++ [(t, tiding)]) :=
  ⟨log, [], rfl, fun _ => List.not_mem_nil⟩

theorem LastTold.concat (h : LastTold t tiding log) (hne : entry.1 ≠ t) :
    LastTold t tiding (log ++ [entry]) := by
  obtain ⟨before, after, rfl, hafter⟩ := h
  refine ⟨before, after ++ [entry], by simp, fun word hword => ?_⟩
  rcases List.mem_append.1 hword with hword | hword
  · exact hafter word hword
  · exact hne (congrArg Prod.fst (List.mem_singleton.1 hword)).symm

theorem LastTold.split (h : LastTold u tiding (before ++ (t, pass) :: after)) :
    LastTold u tiding before ∨ (u, tiding) ∈ after ∨
      (u, tiding) = (t, pass) ∧ ∀ word, (u, word) ∉ after := by
  obtain ⟨xs, ys, heq, hys⟩ := h
  rcases List.append_eq_append_iff.1 heq with ⟨zs, rfl, hafter⟩ | ⟨zs, rfl, hys'⟩
  · cases zs with
    | nil =>
      obtain ⟨hentry, rfl⟩ := List.cons.inj hafter
      exact .inr (.inr ⟨hentry.symm, hys⟩)
    | cons z zs =>
      obtain ⟨rfl, rfl⟩ := List.cons.inj hafter
      exact .inr (.inl (by simp))
  · cases zs with
    | nil =>
      obtain ⟨hentry, rfl⟩ := List.cons.inj hys'
      exact .inr (.inr ⟨hentry, hys⟩)
    | cons z zs =>
      obtain ⟨rfl, rfl⟩ := List.cons.inj hys'
      exact .inl ⟨xs, zs, rfl, fun word hword => hys word (List.mem_append_left _ hword)⟩

theorem Undisturbed.of_concat (h : Undisturbed before (after ++ [entry])) :
    Undisturbed before after :=
  ⟨h.before, fun x hx => h.after x (List.mem_append_left _ hx)⟩

theorem not_due_of_forall (h : ∀ entry ∈ log, entry.2.stint = .idle) (u : TaskId) :
    ¬ Due u log := by
  rintro ⟨tiding, ⟨before, after, rfl, -⟩, hne⟩
  exact hne (h _ (List.mem_append_right _ List.mem_cons_self))

end Logs

namespace Tiding

theorem stint_of_isUsablePass {tiding : Tiding} (h : tiding.isUsablePass = true) :
    tiding.stint = .arm := by
  unfold stint
  split
  · cases h
  · exact if_pos h

theorem isUsablePass_of_stint {tiding : Tiding} (h : tiding.stint = .arm) :
    tiding.isUsablePass = true := by
  unfold stint at h
  split at h
  · cases h
  · split at h
    · assumption
    · cases h

end Tiding

def Stint.Follows : Stint → Tiding → Prop
  | .arming _, tiding => tiding.stint = .arm
  | stint, tiding => tiding.stint = stint

theorem Tiding.follows (tiding : Tiding) : tiding.stint.Follows tiding := by
  cases h : tiding.stint with
  | arming task =>
    unfold stint at h
    split at h
    · cases h
    · split at h <;> cases h
  | _ => exact h

theorem Stint.Follows.ne_idle {stint : Stint} {tiding : Tiding} (h : stint.Follows tiding)
    (hstint : stint ≠ .idle) : tiding.stint ≠ .idle := by
  cases stint with
  | idle => exact absurd rfl hstint
  | cancel => exact fun hidle => nomatch h.symm.trans hidle
  | arm => exact fun hidle => nomatch h.symm.trans hidle
  | arming task => exact fun hidle => nomatch Eq.trans (Eq.symm h) hidle

/-- A change that leads to something to do comes from something to do, and nothing was told. -/
theorem Stint.Writes.follows {id : CellId} {stint next : Stint} {v w : World K}
    (h : Stint.Writes id stint v w next) (hnext : next ≠ .idle) :
    stint ≠ .idle ∧ ∀ tiding : Tiding, stint.Follows tiding → next.Follows tiding := by
  cases h with
  | leaves => exact ⟨hnext, fun _ h => h⟩
  | cancels => exact absurd rfl hnext
  | arms => exact ⟨nofun, fun _ h => h⟩

/-- A pass of use is about to arm a timer, or the timer that it armed is in the slot, and its build
is about to say so or has said so in `after`. -/
def Stands (id : CellId) (w : World K) (t : TaskId) (stint : Stint)
    (after : List (TaskId × Tiding)) : Prop :=
  stint = .arm ∨ ∃ task, w.timer? id = some task ∧
    (stint = .arming task ∨ (t, .armed task) ∈ after)

structure Timely (id : CellId) (isMini : Bool) (crowd : Crowd K Tiding) (stint : TaskId → Stint) :
    Prop where
  obeys : ∀ t, Obeys id isMini (crowd.tasks t) (fun _ stint => stint = .idle) (stint t)
  upholds : ∀ t, Meets (upholding id) (crowd.tasks t).mute (fun _ _ _ => True) crowd.world
  isMini : crowd.world.isMini? id = some isMini
  rotates : crowd.world.rotates? id = some true
  wound : crowd.world.Wound
  due : ∀ t, stint t ≠ .idle → ∃ tiding, LastTold t tiding crowd.log ∧ (stint t).Follows tiding
  stands : ∀ before t pass after, crowd.log = before ++ (t, pass) :: after →
    pass.isUsablePass = true → Undisturbed before after →
      Stands id crowd.world t (stint t) after

namespace Timely

variable {id : CellId} {isMini : Bool} {crowd crowd' : Crowd K Tiding} {stint : TaskId → Stint}
  {t : TaskId} {p : Telling K Tiding Unit} {w : World K} {locks : CellId → Lock} {next : Stint}

theorem obeys_advance (h : Timely id isMini crowd stint) {told : List Tiding}
    (hp : Obeys id isMini p (fun _ stint => stint = .idle) next) (u : TaskId) :
    Obeys id isMini ((crowd.advance t told p w locks).tasks u) (fun _ stint => stint = .idle)
      (Function.update stint t next u) := by
  show Obeys id isMini (Function.update crowd.tasks t p u) _ _
  obtain rfl | hu := eq_or_ne u t
  · rwa [Function.update_self, Function.update_self]
  · rw [Function.update_of_ne hu, Function.update_of_ne hu]
    exact h.obeys u

theorem upholds_advance (h : Timely id isMini crowd stint) {told : List Tiding}
    (hupholds : Upholds id crowd.world w)
    (hp : Meets (upholding id) p.mute (fun _ _ _ => True) w) (u : TaskId) :
    Meets (upholding id) ((crowd.advance t told p w locks).tasks u).mute (fun _ _ _ => True) w := by
  show Meets (upholding id) (Function.update crowd.tasks t p u).mute _ _
  obtain rfl | hu := eq_or_ne u t
  · rwa [Function.update_self]
  · rw [Function.update_of_ne hu]
    exact (h.upholds u).later hupholds

/-- While nobody comes to disturb the timer of a pass, nobody has anything to do about it but who
made the pass, and only until it has armed the timer and said so. -/
theorem follows_of_undisturbed (h : Timely id isMini crowd stint)
    {before after : List (TaskId × Tiding)} {u : TaskId} {pass : Tiding}
    (hlog : crowd.log = before ++ (u, pass) :: after) (hundisturbed : Undisturbed before after)
    (ht : stint t ≠ .idle) :
    t = u ∧ (stint t).Follows pass ∧ ∀ word, (t, word) ∉ after := by
  obtain ⟨tiding, hlast, hfollows⟩ := h.due t ht
  have hne := hfollows.ne_idle ht
  rw [hlog] at hlast
  rcases hlast.split with hbefore | hafter | ⟨hentry, hafter⟩
  · exact absurd ⟨tiding, hbefore, hne⟩ (hundisturbed.before t)
  · exact absurd (hundisturbed.after _ hafter) hne
  · cases hentry
    exact ⟨rfl, hfollows, hafter⟩

theorem write (h : Timely id isMini crowd stint) (hwrites : (stint t).Writes id crowd.world w next)
    (hupholds : Upholds id crowd.world w)
    (hobeys : Obeys id isMini p (fun _ stint => stint = .idle) next)
    (hp : Meets (upholding id) p.mute (fun _ _ _ => True) w) :
    Timely id isMini (crowd.advance t [] p w locks) (Function.update stint t next) where
  obeys := h.obeys_advance hobeys
  upholds := h.upholds_advance hupholds hp
  isMini := by
    show w.isMini? id = _
    rw [← h.isMini]
    generalize stint t = before at hwrites
    cases hwrites with
    | leaves _ hleaves => exact hleaves.isMini
    | cancels hw => exact hw ▸ isMini?_cancelTimer crowd.world id id
    | arms hw => exact hw ▸ isMini?_armTimer crowd.world id id
  rotates := hupholds.rotates _ h.rotates
  wound := hupholds.wound h.wound
  due u hu := by
    rw [Crowd.log_advance_nil]
    obtain rfl | hne := eq_or_ne u t
    · rw [Function.update_self] at hu ⊢
      obtain ⟨hstint, hfollows⟩ := hwrites.follows hu
      exact (h.due u hstint).imp fun tiding h => ⟨h.1, hfollows tiding h.2⟩
    · rw [Function.update_of_ne hne] at hu ⊢
      exact h.due u hu
  stands before u pass after hlog hpass hundisturbed := by
    rw [Crowd.log_advance_nil] at hlog
    have hstands := h.stands before u pass after hlog hpass hundisturbed
    have hdue := h.follows_of_undisturbed (t := t) hlog hundisturbed
    show Stands id w u _ after
    generalize hstint : stint t = here at hwrites hdue
    cases hwrites with
    | leaves _ hleaves =>
      rw [← hstint, Function.update_eq_self]
      rwa [Stands, hleaves.timer]
    | cancels =>
      obtain ⟨-, hfollows, -⟩ := hdue nofun
      exact nomatch hfollows.symm.trans (Tiding.stint_of_isUsablePass hpass)
    | arms hw =>
      obtain ⟨rfl, -, -⟩ := hdue nofun
      obtain ⟨c, hc, -⟩ := Option.map_eq_some_iff.1 h.rotates
      rw [Function.update_self]
      refine .inr ⟨crowd.world.nextTask, ?_, .inl rfl⟩
      rw [hw, timer?_armTimer hc, if_pos rfl]

theorem leave (h : Timely id isMini crowd stint)
    (hobeys : Obeys id isMini p (fun _ stint => stint = .idle) (stint t))
    (hp : Meets (upholding id) p.mute (fun _ _ _ => True) crowd.world) :
    Timely id isMini (crowd.advance t [] p crowd.world locks) stint :=
  Function.update_eq_self t stint ▸
    h.write (.leaves _ (.refl id crowd.world)) (.refl id crowd.world) hobeys hp

theorem tell (h : Timely id isMini crowd stint) {tiding : Tiding}
    (htells : (stint t).Tells tiding next)
    (hobeys : Obeys id isMini p (fun _ stint => stint = .idle) next)
    (hp : Meets (upholding id) p.mute (fun _ _ _ => True) crowd.world) :
    Timely id isMini (crowd.advance t [tiding] p crowd.world locks)
      (Function.update stint t next) where
  obeys := h.obeys_advance hobeys
  upholds := h.upholds_advance (.refl id _) hp
  isMini := h.isMini
  rotates := h.rotates
  wound := h.wound
  due u hu := by
    obtain rfl | hne := eq_or_ne u t
    · rw [Function.update_self] at hu ⊢
      generalize stint u = before at htells
      cases htells with
      | idle => exact ⟨tiding, lastTold_concat, tiding.follows⟩
      | armed => exact absurd rfl hu
    · rw [Function.update_of_ne hne] at hu ⊢
      obtain ⟨word, hlast, hfollows⟩ := h.due u hu
      exact ⟨word, hlast.concat (Ne.symm hne), hfollows⟩
  stands before u pass after hlog hpass hundisturbed := by
    show Stands id crowd.world u _ after
    rcases List.eq_nil_or_concat' after with rfl | ⟨after, entry, rfl⟩
    · obtain ⟨-, hword⟩ := List.append_inj' hlog rfl
      cases hword
      rw [Function.update_self]
      generalize stint t = here at htells
      cases htells with
      | idle => exact .inl (Tiding.stint_of_isUsablePass hpass)
      | armed => cases hpass
    · have hsplit : crowd.log ++ [(t, tiding)] = (before ++ (u, pass) :: after) ++ [entry] := by
        rw [List.append_assoc]
        exact hlog
      obtain ⟨hbefore, hentry⟩ := List.append_inj' hsplit rfl
      obtain rfl : (t, tiding) = entry := List.singleton_inj.1 hentry
      have hstands := h.stands before u pass after hbefore hpass hundisturbed.of_concat
      obtain rfl | hne := eq_or_ne u t
      · rw [Function.update_self]
        generalize stint u = here at htells hstands
        rcases hstands with rfl | ⟨task, htimer, rfl | hmem⟩
        · cases htells
        · cases htells
          exact .inr ⟨task, htimer, .inr (List.mem_append_right _ (List.mem_singleton_self _))⟩
        · exact .inr ⟨task, htimer, .inr (List.mem_append_left _ hmem)⟩
      · rw [Function.update_of_ne hne]
        exact hstands.imp_right fun ⟨task, htimer, harmed⟩ =>
          ⟨task, htimer, harmed.imp_right (List.mem_append_left _)⟩

end Timely

/-- What the rest of the world does: it leaves the timer of a cell alone, keeps all timers in order,
and leaves the cell where it stands. -/
structure Elsewhere (id : CellId) (v w : World K) : Prop where
  leaves : LeavesTimer id v w
  upholds : Upholds id v w
  spares : Spares id v w

namespace Timely

variable {id : CellId} {isMini : Bool} {crowd crowd' : Crowd K Tiding} {stint : TaskId → Stint}
  {others : World K → World K → Prop}

theorem step (h : Timely id isMini crowd stint) (hothers : ∀ u v, others u v → Elsewhere id u v)
    (hstep : Crowd.Step others crowd crowd') : ∃ stint', Timely id isMini crowd' stint' := by
  cases hstep with
  | @others w hw =>
    have hleaves : LeavesTimer id crowd.world w := (hothers _ _ hw).leaves
    have hupholds : Upholds id crowd.world w := (hothers _ _ hw).upholds
    refine ⟨stint, h.obeys, fun t => (h.upholds t).later hupholds, hleaves.isMini.trans h.isMini,
      hupholds.rotates _ h.rotates, hupholds.wound h.wound, h.due, ?_⟩
    intro before t pass after hlog hpass hundisturbed
    have hstands := h.stands before t pass after hlog hpass hundisturbed
    rwa [Stands, ← hleaves.timer] at hstands
  | task t hmoves =>
    have hobeys := h.obeys t
    have hmeets := h.upholds t
    generalize crowd.tasks t = p at hmoves hobeys hmeets
    cases hmoves with
    | update =>
      obtain ⟨next, hwrites, hnext⟩ := hobeys _ h.isMini h.rotates
      obtain ⟨hupholds, hrest⟩ := hmeets _ (.refl id _)
      exact ⟨_, h.write hwrites hupholds hnext hrest⟩
    | invoke => exact ⟨stint, h.leave (hobeys _ h.isMini) (hmeets _ (.refl id _)).2⟩
    | acquire hallows => exact ⟨stint, h.leave hobeys hmeets⟩
    | release => exact ⟨stint, h.leave hobeys hmeets⟩
    | rest => exact ⟨stint, h.leave hobeys hmeets⟩
    | restUnlessCancelled isCancelled =>
      exact ⟨stint, h.leave (hobeys isCancelled) (hmeets isCancelled)⟩
    | tell =>
      obtain ⟨next, htells, hnext⟩ := hobeys
      exact ⟨_, h.tell htells hnext hmeets⟩

theorem turn (h : Timely id isMini crowd stint) (hothers : ∀ u v, others u v → Elsewhere id u v)
    (hturn : Crowd.Turn others id (roundAsking id) crowd crowd') :
    ∃ stint', Timely id isMini crowd' stint' := by
  cases hturn with
  | step hstep => exact h.step hothers hstep
  | @timer task hlaunched hidle =>
    have hstint : stint task = .idle := by
      have hobeys := h.obeys task
      rwa [hidle] at hobeys
    refine ⟨stint, h.leave ?_ ?_⟩
    · rw [hstint]
      exact settles_roundAsking
    · rw [mute_roundAsking]
      exact Meets.seq (quiet_round winds_upholding) fun _ _ _ _ _ => Meets.pure fun _ _ => trivial

end Timely

/-- How it is with the timers of a cell at a moment. -/
structure OneTimer (id : CellId) (crowd : Crowd K Tiding) : Prop where
  /-- One is armed at most. -/
  unique : ∀ task task', crowd.world.Armed id task → crowd.world.Armed id task' → task = task'
  /-- If a build has returned whose pass was of use, and nobody has disturbed its timer since, then
  the pass has armed one and said which, and this one is armed. -/
  stands : ∀ before t pass after op, crowd.log = before ++ (t, pass) :: after →
    pass.isUsablePass = true → (t, .heard (.returned op)) ∈ after → Undisturbed before after →
      ∃ task, (t, .armed task) ∈ after ∧ crowd.world.Armed id task
  /-- Whoever launches one now has told last of all that its pass was of use. -/
  launches : ∀ t told p w locks, Moves t (crowd.tasks t) crowd.world crowd.locks told p w locks →
    ∀ task, (task, id) ∈ w.launched → (task, id) ∈ crowd.world.launched ∨
      ∃ pass, LastTold t pass crowd.log ∧ pass.isUsablePass = true
  /-- Whoever is about to ask for a credential is so while the cell is not destroyed. -/
  asks : ∀ t next, crowd.tasks t = .call (.tell .asks) next → crowd.world.Undestroyed id

theorem Timely.oneTimer {id : CellId} {isMini : Bool} {crowd : Crowd K Tiding}
    {stint : TaskId → Stint} (h : Timely id isMini crowd stint)
    (hasks : ∀ t next, crowd.tasks t = .call (.tell .asks) next → crowd.world.Undestroyed id) :
    OneTimer id crowd where
  unique task task' harmed harmed' := h.wound.armed_unique harmed harmed'
  stands before t pass after op hlog hpass hreturned hundisturbed := by
    have hsilent (hne : stint t ≠ .idle) : False :=
      (h.follows_of_undisturbed hlog hundisturbed hne).2.2 _ hreturned
    rcases h.stands before t pass after hlog hpass hundisturbed with
      harm | ⟨task, htimer, harming | hmem⟩
    · exact (hsilent (by rw [harm]; exact nofun)).elim
    · exact (hsilent (by rw [harming]; exact nofun)).elim
    · exact ⟨task, hmem, (h.wound.slot id task).1 htimer⟩
  launches t told p w locks hmoves task hlaunched := by
    have hobeys := h.obeys t
    have hdue := h.due t
    generalize crowd.tasks t = q at hmoves hobeys
    cases hmoves with
    | update =>
      obtain ⟨next, hwrites, -⟩ := hobeys _ h.isMini h.rotates
      generalize stint t = here at hwrites hdue
      cases hwrites with
      | leaves _ hleaves => exact .inl (hleaves.launched task hlaunched)
      | cancels hw =>
        rw [hw, launched_cancelTimer] at hlaunched
        exact .inl hlaunched
      | arms =>
        obtain ⟨pass, hlast, hpass⟩ := hdue nofun
        exact .inr ⟨pass, hlast, Tiding.isUsablePass_of_stint hpass⟩
    | _ => exact .inl hlaunched
  asks := hasks

section Convening

variable {id : CellId} {d : Cell K} {w : World K} {locks : CellId → Lock}

theorem timely_conveneTelling (hd : w.cell? id = some d) (hrotates : d.rotates = true)
    (hwound : w.Wound) (tasks : Requests K ρ) :
    Timely id d.isMini (conveneTelling id tasks w locks) fun _ => .idle where
  obeys t := by
    rw [conveneTelling]
    dsimp only
    split
    · exact Settles.interpret settles_tidings (tasks t)
    · rfl
  upholds t := by
    rw [conveneTelling]
    dsimp only
    split
    · rw [mute_interpret]
      simp only [mute_tidings]
      exact upholds_requests (tasks t)
    · exact Meets.pure fun _ _ => trivial
  isMini := by
    show w.isMini? id = _
    rw [isMini?, hd, Option.map_some]
  rotates := by
    show w.rotates? id = _
    rw [rotates?, hd, Option.map_some, hrotates]
  wound := hwound
  due _ hne := absurd rfl hne
  stands before t pass after hlog := by simp [conveneTelling] at hlog

/-- However many tasks build and destroy a cell that rotates, and assign, rotate, call and look at
it, while all timers that were ever launched for it go round after round, in whatever order their
steps are taken: one timer is armed at most. When a pass of use has returned it is the one that the
pass has armed, unless somebody came to cancel it or to arm another one meanwhile. A pass that is
not of use arms none, and nobody asks for a credential while the cell is destroyed. The tasks and
the timers tell so while they do the same as they always do. -/
theorem cell_keeps_one_timer {others : World K → World K → Prop} (hd : w.cell? id = some d)
    (hrotates : d.rotates = true) (hwound : w.Wound) (hfree : locks id = .free)
    (hothers : ∀ u v, others u v → Elsewhere id u v) (tasks : Requests K ρ) :
    (∀ crowd, Crowd.Revolves others id (roundAsking id) (conveneTelling id tasks w locks) crowd →
      OneTimer id crowd) ∧
    ∀ quiet, Crowd.Revolves others id (silent (do
        let _ ← round id
        return ())) (convene id tasks w locks) quiet →
      ∃ crowd, Crowd.Revolves others id (roundAsking id) (conveneTelling id tasks w locks) crowd ∧
        crowd.mute = quiet := by
  refine ⟨fun crowd run => ?_, fun quiet run => ?_⟩
  · let P (crowd : Crowd K Tiding) := ∃ stint, Timely id d.isMini crowd stint
    have htimely : P crowd :=
      run.induct ⟨_, timely_conveneTelling hd hrotates hwound tasks⟩ fun h turn =>
        h.elim fun _ h => h.turn hothers turn
    obtain ⟨stint, h⟩ := htimely
    exact h.oneTimer fun t next ht =>
      undestroyed_of_asks hd hfree (fun u v huv => (hothers u v huv).spares) tasks run ht
  · rw [← mute_conveneTelling, ← mute_roundAsking] at run
    exact Crowd.exists_revolves_of_mute run

end Convening

def ledgerConvened : Crowd Rehearsal.kit Tiding :=
  conveneTelling 0 buildAndDestroy { cells := #[ledger], nextTask := 2 } fun _ => .free

def ledgerTicking : Crowd Rehearsal.kit Tiding :=
  let built := ledgerConvened.following (List.replicate 40 0)
  built.advance 2 [] (roundAsking 0) built.world built.locks

/-- The timer that the build has armed comes to ask for a credential, and no other one is armed. -/
theorem cell_keeps_one_timer_ledger : ∃ crowd,
    Crowd.Revolves (Elsewhere 0) 0 (roundAsking 0) ledgerConvened crowd ∧
      crowd.log.getLast? = some (2, .asks) ∧ crowd.world.Armed 0 2 ∧
        ∀ task, crowd.world.Armed 0 task → task = 2 := by
  let crowd := ledgerTicking.following (List.replicate 9 2)
  have hlog : crowd.log = [(0, .heard (.called (.build .boot))),
      (0, .ofMark (.begun (.build .boot)))] ++ (0, .heard ledgerBuilt) ::
        [(0, .armed 2), (0, .heard (.returned (.build .boot))), (2, .ofMark (.begun .rotate)),
          (2, .asks)] := by decide +kernel
  have hbuilt : Crowd.Revolves (Elsewhere 0) 0 (roundAsking 0) ledgerConvened
      (ledgerConvened.following (List.replicate 40 0)) := (Crowd.becomes_following _ _).revolves
  have hround : Crowd.Turn (Elsewhere 0) 0 (roundAsking 0)
      (ledgerConvened.following (List.replicate 40 0)) ledgerTicking :=
    .timer (by decide +kernel) rfl
  have hrun : Crowd.Revolves (Elsewhere 0) 0 (roundAsking 0) ledgerConvened crowd :=
    (hbuilt.tail hround).trans (Crowd.becomes_following _ _).revolves
  have hwound : World.Wound ({ cells := #[ledger], nextTask := 2 } : World Rehearsal.kit) :=
    wound_of_idle rfl rfl (by rintro (_ | cell) <;> rfl)
  have hone : OneTimer 0 crowd :=
    (cell_keeps_one_timer (d := ledger) rfl rfl hwound rfl (fun _ _ h => h) buildAndDestroy).1
      crowd hrun
  obtain ⟨task, htold, harmed⟩ := hone.stands _ 0 _ _ (.build .boot) hlog rfl (by simp)
    ⟨not_due_of_forall (by decide), by decide⟩
  obtain rfl : task = 2 := by simpa using htold
  exact ⟨crowd, hrun, by rw [hlog]; rfl, harmed, fun task h => hone.unique task 2 h harmed⟩

end Rotation

end Steward
