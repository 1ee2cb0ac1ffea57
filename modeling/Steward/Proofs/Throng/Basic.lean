import Mathlib.Logic.Function.Basic
import Mathlib.Logic.Relation
import Steward.Core.Action
/-!
Many tasks side by side, with fair locks. A throng takes one step after the other, each of them one
effect of one of its tasks, in any order. A task that cannot have a lock at once waits in the line
of that lock, and stays at the effect until it is let in. Meanwhile the rest of the world may change
as well.
-/
namespace Steward

variable {K : Kit} {α : Type}

/-- Tasks at work in one world, and the code of the application that each has come to so far. -/
structure Throng (K : Kit) (α : Type) where
  world : World K
  locks : CellId → Lock := fun _ => .free
  /-- What each task has left to do. -/
  tasks : TaskId → Action K α
  log : List (TaskId × Invocation) := []

namespace Throng

def wanted? : Action K α → Option (CellId × Access)
  | .call (.acquire cell access) _ => some (cell, access)
  | _ => none

theorem exists_next_of_wanted? {p : Action K α} {cell : CellId} {access : Access}
    (h : wanted? p = some (cell, access)) : ∃ next, p = .call (.acquire cell access) next := by
  unfold wanted? at h
  split at h
  · cases h
    exact ⟨_, rfl⟩
  · cases h

/-- The code of the application that a task comes to next, if that is what it does next. -/
def called? : Action K α → Option Invocation
  | .call (.invoke what) _ => some what
  | _ => none

theorem exists_next_of_called? {p : Action K α} {what : Invocation} (h : called? p = some what) :
    ∃ next, p = .call (.invoke what) next := by
  unfold called? at h
  split at h
  · cases h
    exact ⟨_, rfl⟩
  · cases h

/-- The answer of a task that is over. -/
def answer? : Action K α → Option α
  | .done a => some a
  | .call _ _ => none

theorem eq_done_of_answer? {p : Action K α} {a : α} (h : answer? p = some a) : p = .done a := by
  cases p with
  | done b => exact congrArg _ (Option.some.inj h)
  | call _ _ => cases h

def proceed : Action K α → Action K α
  | .call (.acquire _ _) next => next ()
  | p => p

def setTask (g : Throng K α) (t : TaskId) (p : Action K α) : Throng K α :=
  { g with tasks := Function.update g.tasks t p }

def setLock (g : Throng K α) (cell : CellId) (lock : Lock) : Throng K α :=
  { g with locks := Function.update g.locks cell lock }

@[simp] theorem tasks_setTask (g : Throng K α) (t u : TaskId) (p : Action K α) :
    (g.setTask t p).tasks u = if u = t then p else g.tasks u :=
  Function.update_apply ..

@[simp] theorem locks_setLock (g : Throng K α) (cell other : CellId) (lock : Lock) :
    (g.setLock cell lock).locks other = if other = cell then lock else g.locks other :=
  Function.update_apply ..

@[simp] theorem locks_setTask (g : Throng K α) (t : TaskId) (p : Action K α) :
    (g.setTask t p).locks = g.locks := rfl

@[simp] theorem tasks_setLock (g : Throng K α) (cell : CellId) (lock : Lock) :
    (g.setLock cell lock).tasks = g.tasks := rfl

def IsInLine (l : Lock) (t : TaskId) : Prop := t ∈ l.line.map (·.1)

instance (l : Lock) (t : TaskId) : Decidable (IsInLine l t) :=
  inferInstanceAs (Decidable (t ∈ l.line.map (·.1)))

def letIn (g : Throng K α) (admitted : List TaskId) : Throng K α :=
  { g with tasks := fun t => if t ∈ admitted then proceed (g.tasks t) else g.tasks t }

@[simp] theorem tasks_letIn (g : Throng K α) (admitted : List TaskId) (t : TaskId) :
    (g.letIn admitted).tasks t = if t ∈ admitted then proceed (g.tasks t) else g.tasks t := rfl

@[simp] theorem locks_letIn (g : Throng K α) (admitted : List TaskId) :
    (g.letIn admitted).locks = g.locks := rfl

/-- What a task does next, if it can do anything. Whether its timer is cancelled is told from
outside. -/
def advance (g : Throng K α) (t : TaskId) (isCancelled : Bool) : Option (Throng K α) :=
  match g.tasks t with
  | .done _ => none
  | .call (.update f) next => some { g.setTask t (next g.world) with world := f g.world }
  | .call (.invoke what) next =>
    some { g.setTask t (next g.world) with log := g.log ++ [(t, what)] }
  | .call (.acquire cell access) next =>
    if IsInLine (g.locks cell) t then none
    else if (g.locks cell).meets access then
      some ((g.setTask t (next ())).setLock cell ((g.locks cell).grant t access))
    else some (g.setLock cell ((g.locks cell).request t access))
  | .call (.release cell) next =>
    let (lock, admitted) := (g.locks cell).release t
    some (((g.setTask t (next ())).setLock cell lock).letIn admitted)
  | .call (.rest _) next => some (g.setTask t (next ()))
  | .call (.restUnlessCancelled _) next => some (g.setTask t (next isCancelled))
  | .call (.exit _) _ => none

/-- The rest of the world changes as `others` says, or one task does what it does next. -/
inductive Step (others : World K → World K → Prop) : Throng K α → Throng K α → Prop
  | others {g : Throng K α} {w : World K} (h : others g.world w) :
      Step others g { g with world := w }
  | task {g g' : Throng K α} (t : TaskId) (isCancelled : Bool)
      (h : g.advance t isCancelled = some g') : Step others g g'

/-- What a throng can come to, in any number of steps. -/
def Becomes (others : World K → World K → Prop) : Throng K α → Throng K α → Prop :=
  Relation.ReflTransGen (Step others)

variable {others : World K → World K → Prop} {g g' : Throng K α}

theorem Becomes.induct {P : Throng K α → Prop} (run : g.Becomes others g') (h : P g)
    (hstep : ∀ {c c'}, P c → Step others c c' → P c') : P g' := by
  induction run with
  | refl => exact h
  | tail _ step ih => exact hstep ih step

/-- Where a throng comes to if its tasks go on in a certain order, as far as they can. -/
def following (g : Throng K α) (schedule : List TaskId) : Throng K α :=
  schedule.foldl (fun g t => (g.advance t false).getD g) g

theorem becomes_following (schedule : List TaskId) (g : Throng K α) :
    g.Becomes others (g.following schedule) := by
  induction schedule generalizing g with
  | nil => exact .refl
  | cons t schedule ih =>
    show g.Becomes others (((g.advance t false).getD g).following schedule)
    cases h : g.advance t false with
    | none => exact ih g
    | some g' => exact .head (.task t false h) (ih g')

end Throng

end Steward
