/-!
A fair lock for many readers or one writer. Whoever cannot have it at once waits in line, and a
waiting writer holds back later readers.
-/
namespace Steward

abbrev TaskId := Nat

inductive Access where
  | read
  | write
  deriving DecidableEq, Repr

structure Lock where
  writer : Option TaskId := none
  readers : List TaskId := []
  /-- Who waits, the longest waiting first. -/
  line : List (TaskId × Access) := []
  deriving DecidableEq, Repr

namespace Lock

def free : Lock := {}

/-- Whether the lock could be had if nobody waited. -/
def allows (l : Lock) : Access → Bool
  | .read => l.writer.isNone
  | .write => l.writer.isNone && l.readers.isEmpty

def grant (l : Lock) (task : TaskId) : Access → Lock
  | .read => { l with readers := task :: l.readers }
  | .write => { l with writer := some task }

def meets (l : Lock) (access : Access) : Bool := l.line.isEmpty && l.allows access

/-- Asks for the lock; a request that is not met waits at the end of the line. -/
def request (l : Lock) (task : TaskId) (access : Access) : Lock :=
  if l.meets access then l.grant task access
  else { l with line := l.line ++ [(task, access)] }

def letIn : (line : List (TaskId × Access)) → Lock → Lock × List TaskId
  | [], l => ({ l with line := [] }, [])
  | (task, access) :: rest, l =>
    if l.allows access then
      let (l, let_in) := letIn rest (l.grant task access)
      (l, task :: let_in)
    else ({ l with line := (task, access) :: rest }, [])

def leave (l : Lock) (task : TaskId) : Lock :=
  if l.writer = some task then { l with writer := none }
  else { l with readers := l.readers.erase task }

def release (l : Lock) (task : TaskId) : Lock × List TaskId :=
  let l := l.leave task
  letIn l.line l

def Exclusive (l : Lock) : Prop := l.writer.isSome → l.readers = []

theorem exclusive_grant {l : Lock} {task : TaskId} {access : Access}
    (h : l.allows access = true) : (l.grant task access).Exclusive := by
  cases access <;> simp_all [Exclusive, grant, allows]

theorem exclusive_request {l : Lock} (h : l.Exclusive) (task : TaskId) (access : Access) :
    (l.request task access).Exclusive := by
  unfold request
  split
  · rename_i hm
    simp only [meets, Bool.and_eq_true] at hm
    exact exclusive_grant hm.2
  · exact h

theorem exclusive_letIn (line : List (TaskId × Access)) {l : Lock} (h : l.Exclusive) :
    (letIn line l).1.Exclusive := by
  induction line generalizing l with
  | nil => exact h
  | cons head rest ih =>
    obtain ⟨task, access⟩ := head
    unfold letIn
    split
    · rename_i ha
      exact ih (exclusive_grant ha)
    · exact h

theorem exclusive_leave {l : Lock} (h : l.Exclusive) (task : TaskId) :
    (l.leave task).Exclusive := by
  unfold leave
  split
  · intro hw
    simp at hw
  · intro hw
    simp [h hw]

theorem exclusive_release {l : Lock} (h : l.Exclusive) (task : TaskId) :
    (l.release task).1.Exclusive := exclusive_letIn _ (exclusive_leave h task)

end Lock

end Steward
