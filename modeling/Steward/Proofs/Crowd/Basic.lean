import Mathlib.Logic.Function.Basic
import Mathlib.Logic.Relation
import Steward.Core.Action
/-!
Many tasks side by side. A crowd takes one step after the other, each of them one effect of one of
its tasks, in any order; of the locks no more is assumed than that a writer excludes everybody
else. Meanwhile the rest of the world may change as well.

A task may tell things on its way, and then there is a log of what was told. To tell something
changes nothing about what the tasks do: whatever a crowd does that tells nothing, it also does
while it tells.
-/
namespace Steward

variable {K : Kit} {μ ν α β : Type}

inductive Move (K : Kit) (μ : Type) where
  | effect (e : Effect K)
  | tell (word : μ)

def Move.Answer : Move K μ → Type
  | .effect e => e.Answer
  | .tell _ => Unit

abbrev Telling (K : Kit) (μ : Type) := Program (Move.Answer (K := K) (μ := μ))

namespace Telling

def tell (word : μ) : Telling K μ Unit := .ask (Move.tell word)

/-- An action, which tells nothing. -/
def silent : Action K α → Telling K μ α
  | .done a => .done a
  | .call e next => .call (Move.effect e) fun a => silent (next a)

/-- What a program does, without what it tells. -/
def mute : Telling K μ α → Action K α
  | .done a => .done a
  | .call (.effect e) next => .call e fun a => mute (next a)
  | .call (.tell _) next => mute (next ())

def relay (f : μ → ν) : Telling K μ α → Telling K ν α
  | .done a => .done a
  | .call (.effect e) next => .call (Move.effect e) fun a => relay f (next a)
  | .call (.tell word) next => .call (Move.tell (f word)) fun _ => relay f (next ())

@[simp] theorem mute_pure (a : α) : mute (pure a : Telling K μ α) = pure a := rfl

@[simp] theorem mute_tell (word : μ) : mute (tell word : Telling K μ Unit) = pure () := rfl

@[simp] theorem mute_silent (p : Action K α) : mute (silent p : Telling K μ α) = p := by
  induction p with
  | done a => rfl
  | call e next ih => exact congrArg _ (funext ih)

theorem silent_bind (p : Action K α) (f : α → Action K β) :
    (silent (p >>= f) : Telling K μ β) = silent p >>= fun a => silent (f a) := by
  induction p with
  | done a => rfl
  | call e next ih => exact congrArg _ (funext ih)

@[simp] theorem mute_bind (p : Telling K μ α) (f : α → Telling K μ β) :
    mute (p >>= f) = mute p >>= fun a => mute (f a) := by
  induction p with
  | done a => rfl
  | call move next ih =>
    cases move with
    | effect e => exact congrArg _ (funext ih)
    | tell word => exact ih ()

@[simp] theorem mute_relay (f : μ → ν) (p : Telling K μ α) : mute (relay f p) = mute p := by
  induction p with
  | done a => rfl
  | call move next ih =>
    cases move with
    | effect e => exact congrArg _ (funext ih)
    | tell word => exact ih ()

@[simp] theorem relay_silent (f : μ → ν) (p : Action K α) : relay f (silent p) = silent p := by
  induction p with
  | done a => rfl
  | call e next ih => exact congrArg _ (funext ih)

@[simp] theorem relay_tell (f : μ → ν) (word : μ) :
    relay f (tell word : Telling K μ Unit) = tell (f word) := rfl

@[simp] theorem relay_bind (f : μ → ν) (p : Telling K μ α) (g : α → Telling K μ β) :
    relay f (p >>= g) = relay f p >>= fun a => relay f (g a) := by
  induction p with
  | done a => rfl
  | call move next ih =>
    cases move with
    | effect e => exact congrArg _ (funext ih)
    | tell word => exact congrArg _ (funext fun _ => ih ())

theorem mute_interpret {ι : Type} {Answer : ι → Type} (carry : (i : ι) → Telling K μ (Answer i))
    (p : Program Answer α) : mute (p.interpret carry) = p.interpret fun i => mute (carry i) := by
  induction p with
  | done a => rfl
  | call i next ih => exact (mute_bind _ _).trans (congrArg _ (funext ih))

end Telling

open Telling

inductive Moves (t : TaskId) : Telling K μ α → World K → (CellId → Lock) → List μ →
    Telling K μ α → World K → (CellId → Lock) → Prop
  | update {f : World K → World K} {next : World K → Telling K μ α} {w : World K}
      {locks : CellId → Lock} :
      Moves t (.call (.effect (.update f)) next) w locks [] (next w) (f w) locks
  | invoke {what : Invocation} {next : World K → Telling K μ α} {w : World K}
      {locks : CellId → Lock} :
      Moves t (.call (.effect (.invoke what)) next) w locks [] (next w) w locks
  | acquire {cell : CellId} {access : Access} {next : Unit → Telling K μ α} {w : World K}
      {locks : CellId → Lock} (hallows : (locks cell).allows access = true) :
      Moves t (.call (.effect (.acquire cell access)) next) w locks [] (next ()) w
        (Function.update locks cell ((locks cell).grant t access))
  | release {cell : CellId} {next : Unit → Telling K μ α} {w : World K}
      {locks : CellId → Lock} :
      Moves t (.call (.effect (.release cell)) next) w locks [] (next ()) w
        (Function.update locks cell ((locks cell).leave t))
  | rest {millis : Nat} {next : Unit → Telling K μ α} {w : World K} {locks : CellId → Lock} :
      Moves t (.call (.effect (.rest millis)) next) w locks [] (next ()) w locks
  | restUnlessCancelled {millis : Nat} {next : Bool → Telling K μ α} {w : World K}
      {locks : CellId → Lock} (isCancelled : Bool) :
      Moves t (.call (.effect (.restUnlessCancelled millis)) next) w locks [] (next isCancelled) w
        locks
  | tell {word : μ} {next : Unit → Telling K μ α} {w : World K} {locks : CellId → Lock} :
      Moves t (.call (.tell word) next) w locks [word] (next ()) w locks

/-- Tasks at work in one world, and what they have told so far. -/
structure Crowd (K : Kit) (μ : Type) where
  world : World K
  locks : CellId → Lock := fun _ => .free
  /-- What each task has left to do. -/
  tasks : TaskId → Telling K μ Unit
  log : List (TaskId × μ) := []

namespace Crowd

def advance (crowd : Crowd K μ) (t : TaskId) (told : List μ) (p : Telling K μ Unit) (w : World K)
    (locks : CellId → Lock) : Crowd K μ where
  world := w
  locks := locks
  tasks := Function.update crowd.tasks t p
  log := crowd.log ++ told.map fun word => (t, word)

@[simp] theorem log_advance_nil (crowd : Crowd K μ) (t : TaskId) (p : Telling K μ Unit)
    (w : World K) (locks : CellId → Lock) : (crowd.advance t [] p w locks).log = crowd.log :=
  List.append_nil crowd.log

/-- The rest of the world changes as `others` says, or one task does what it does next. -/
inductive Step (others : World K → World K → Prop) : Crowd K μ → Crowd K μ → Prop
  | others {crowd : Crowd K μ} {w : World K} (h : others crowd.world w) :
      Step others crowd { crowd with world := w }
  | task {crowd : Crowd K μ} (t : TaskId) {told : List μ} {p : Telling K μ Unit} {w : World K}
      {locks : CellId → Lock} (h : Moves t (crowd.tasks t) crowd.world crowd.locks told p w locks) :
      Step others crowd (crowd.advance t told p w locks)

/-- What a crowd can come to, in any number of steps. -/
def Becomes (others : World K → World K → Prop) : Crowd K μ → Crowd K μ → Prop :=
  Relation.ReflTransGen (Step others)

variable {others : World K → World K → Prop} {crowd crowd' quiet : Crowd K μ}

theorem Becomes.induct {P : Crowd K μ → Prop} (run : crowd.Becomes others crowd')
    (h : P crowd) (hstep : ∀ {c c'}, P c → Step others c c' → P c') : P crowd' := by
  induction run with
  | refl => exact h
  | tail _ step ih => exact hstep ih step

def goOn (crowd : Crowd K μ) (t : TaskId) : Option (Crowd K μ) :=
  let goTo (told : List μ) (p : Telling K μ Unit) (w : World K) (locks : CellId → Lock) :=
    some (crowd.advance t told p w locks)
  match crowd.tasks t with
  | .done _ => none
  | .call (.tell word) next => goTo [word] (next ()) crowd.world crowd.locks
  | .call (.effect e) next => match e, next with
    | .update f, next => goTo [] (next crowd.world) (f crowd.world) crowd.locks
    | .invoke _, next => goTo [] (next crowd.world) crowd.world crowd.locks
    | .acquire cell access, next =>
      if (crowd.locks cell).allows access then
        goTo [] (next ()) crowd.world
          (Function.update crowd.locks cell ((crowd.locks cell).grant t access))
      else none
    | .release cell, next =>
      goTo [] (next ()) crowd.world
        (Function.update crowd.locks cell ((crowd.locks cell).leave t))
    | .rest _, next => goTo [] (next ()) crowd.world crowd.locks
    | .restUnlessCancelled _, next => goTo [] (next false) crowd.world crowd.locks
    | .exit _, _ => none

theorem step_of_goOn {t : TaskId} (h : crowd.goOn t = some crowd') : Step others crowd crowd' := by
  have hstep {told : List μ} {p : Telling K μ Unit} {w : World K} {locks : CellId → Lock}
      (hmoves : Moves t (crowd.tasks t) crowd.world crowd.locks told p w locks)
      (hcrowd : some (crowd.advance t told p w locks) = some crowd') : Step others crowd crowd' :=
    Option.some.inj hcrowd ▸ .task t hmoves
  unfold goOn at h
  dsimp only at h
  split at h
  · cases h
  · rename_i word next ht
    exact hstep (ht ▸ .tell) h
  · rename_i e next ht
    cases e with
    | update f => exact hstep (ht ▸ .update) h
    | invoke what => exact hstep (ht ▸ .invoke) h
    | acquire cell access =>
      dsimp only at h
      split at h
      · rename_i hallows
        exact hstep (ht ▸ .acquire hallows) h
      · cases h
    | release cell => exact hstep (ht ▸ .release) h
    | rest millis => exact hstep (ht ▸ .rest) h
    | restUnlessCancelled millis => exact hstep (ht ▸ .restUnlessCancelled false) h
    | exit code => cases h

/-- Where a crowd comes to if its tasks go on in a certain order, as far as they can. -/
def following (crowd : Crowd K μ) (schedule : List TaskId) : Crowd K μ :=
  schedule.foldl (fun crowd t => (crowd.goOn t).getD crowd) crowd

theorem becomes_following (crowd : Crowd K μ) (schedule : List TaskId) :
    crowd.Becomes others (crowd.following schedule) := by
  induction schedule generalizing crowd with
  | nil => exact .refl
  | cons t schedule ih =>
    show crowd.Becomes others (((crowd.goOn t).getD crowd).following schedule)
    cases h : crowd.goOn t with
    | none => exact ih crowd
    | some crowd' => exact .head (step_of_goOn h) (ih crowd')

/-- The same crowd, if its tasks tell nothing. -/
def mute (crowd : Crowd K μ) : Crowd K μ where
  world := crowd.world
  locks := crowd.locks
  tasks t := silent (Telling.mute (crowd.tasks t))

theorem mute_tasks (crowd : Crowd K μ) (t : TaskId) :
    crowd.mute.tasks t = silent (crowd.tasks t).mute := rfl

theorem mute_advance (t : TaskId) (told : List μ) (p : Telling K μ Unit) (w : World K)
    (locks : CellId → Lock) :
    (crowd.advance t told p w locks).mute =
      crowd.mute.advance t [] (silent p.mute) w locks :=
  congrArg (fun tasks => (⟨w, locks, tasks, []⟩ : Crowd K μ))
    (funext (Function.apply_update (fun _ p => silent p.mute) crowd.tasks t p))

/-- What a task does next that tells nothing, it also does after it has told what it has to tell. -/
theorem exists_becomes_of_moves {t : TaskId} {told : List μ} {q : Telling K μ Unit} {w : World K}
    {locks : CellId → Lock}
    (h : Moves t (crowd.mute.tasks t) crowd.world crowd.locks told q w locks) :
    ∃ crowd', crowd.Becomes others crowd' ∧
      crowd'.mute = crowd.mute.advance t [] q w locks ∧ told = [] := by
  generalize hp : crowd.tasks t = p
  induction p generalizing crowd with
  | done a =>
    rw [mute_tasks, hp] at h
    cases h
  | call move next ih =>
    rw [mute_tasks, hp] at h
    cases move with
    | tell word =>
      have hmove : Moves t (crowd.tasks t) crowd.world crowd.locks [word] (next ()) crowd.world
          crowd.locks := by
        rw [hp]
        exact .tell
      have htold : (crowd.advance t [word] (next ()) crowd.world crowd.locks).mute =
          crowd.mute := by
        rw [mute_advance]
        exact congrArg (fun tasks => (⟨crowd.world, crowd.locks, tasks, []⟩ : Crowd K μ))
          (Function.update_eq_self_iff.2 (by rw [mute_tasks, hp, Telling.mute]))
      obtain ⟨crowd', hrun, hcrowd'⟩ := @ih () (crowd.advance t [word] (next ()) _ _)
        (by rw [htold, mute_tasks, hp]; exact h) (Function.update_self ..)
      exact ⟨crowd', .head (.task t hmove) hrun, htold ▸ hcrowd'⟩
    | effect e =>
      have hdo {p : Telling K μ Unit} (hmove : Moves t (.call (.effect e) next) crowd.world
          crowd.locks [] p w locks) : ∃ crowd', crowd.Becomes others crowd' ∧
            crowd'.mute = crowd.mute.advance t [] (silent p.mute) w locks :=
        ⟨_, .single (.task t (hp ▸ hmove)), mute_advance ..⟩
      cases h with
      | update => exact (hdo .update).imp fun _ h => ⟨h.1, h.2, rfl⟩
      | invoke => exact (hdo .invoke).imp fun _ h => ⟨h.1, h.2, rfl⟩
      | acquire hallows => exact (hdo (.acquire hallows)).imp fun _ h => ⟨h.1, h.2, rfl⟩
      | release => exact (hdo .release).imp fun _ h => ⟨h.1, h.2, rfl⟩
      | rest => exact (hdo .rest).imp fun _ h => ⟨h.1, h.2, rfl⟩
      | restUnlessCancelled b =>
        exact (hdo (.restUnlessCancelled b)).imp fun _ h => ⟨h.1, h.2, rfl⟩

theorem exists_becomes_of_mute (run : crowd.mute.Becomes others quiet) :
    ∃ crowd', crowd.Becomes others crowd' ∧ crowd'.mute = quiet := by
  induction run with
  | refl => exact ⟨crowd, .refl, rfl⟩
  | tail _ step ih =>
    obtain ⟨crowd₁, hrun, rfl⟩ := ih
    cases step with
    | others h => exact ⟨{ crowd₁ with world := _ }, hrun.tail (.others h), rfl⟩
    | task t h =>
      obtain ⟨crowd₂, hrun₂, hmute, rfl⟩ := exists_becomes_of_moves h
      exact ⟨crowd₂, hrun.trans hrun₂, hmute⟩

end Crowd

end Steward
