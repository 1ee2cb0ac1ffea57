import Steward.Fault
/-!
A pool for blocking jobs: at most so many of them run at once, and the others wait their turn.
-/
namespace Steward

structure Workers where
  maxThreads : Nat
  busy : Nat := 0
  deriving DecidableEq, Repr

inductive Job (α : Type) where
  | returns (value : α)
  | panics

namespace Workers

def withThreads (n : Nat) : Workers := { maxThreads := max n 1 }

instance : Inhabited Workers := ⟨withThreads 16⟩

def available (w : Workers) : Nat := w.maxThreads - w.busy

def begin? (w : Workers) : Option Workers :=
  if 0 < w.available then some { w with busy := w.busy + 1 } else none

def finish (w : Workers) : Workers := { w with busy := w.busy - 1 }

def didNotComplete (component : String) : Fault :=
  .infrastructureAt s!"blocking job for '{component}' did not complete" "the job panicked"

/-- What a component gets from its job. -/
def Job.result {α : Type} (component : String) : Job α → Except Fault α
  | .returns value => .ok value
  | .panics => .error (didNotComplete component)

/-- Runs one job on a free thread. -/
def run {α : Type} (w : Workers) (component : String) (job : Job α) :
    Workers × Except Fault α :=
  match w.begin? with
  | some w => (w.finish, Job.result component job)
  | none => (w, .error (.internal "blocking pool closed"))

/-- Runs several jobs that are handed in together: each begins when a thread is free, in order;
of those that run, the one that began first ends first. The answer is the pool afterwards, the
jobs in the order of their ends, and the most that ran at once. -/
def burst {α : Type} : (rounds : Nat) → (waiting running : List α) → (peak : Nat) → Workers →
    Workers × List α × Nat
  | 0, _, _, peak, w => (w, [], peak)
  | rounds + 1, waiting, running, peak, w =>
    match waiting, w.begin?, running with
    | job :: rest, some w, _ =>
      burst rounds rest (running ++ [job]) (max peak (running.length + 1)) w
    | _, _, job :: rest =>
      let (w, ended, peak) := burst rounds waiting rest peak w.finish
      (w, job :: ended, peak)
    | _, _, [] => (w, [], peak)

def runAll {α : Type} (w : Workers) (jobs : List α) : Workers × List α × Nat :=
  burst (2 * jobs.length + 1) jobs [] 0 w

theorem begin?_busy_le {w v : Workers} (h : w.begin? = some v) : v.busy ≤ v.maxThreads := by
  unfold begin? available at h
  split at h
  · cases h
    simp only
    omega
  · cases h

end Workers

end Steward
