import Steward.Core.Hook
import Steward.Status
/-!
The mini-services that a manager keeps, one for each entity, in the order in which they were
added, and the status of the manager that follows from theirs. No two have the same id. The status
is the worst of those that were pooled, but unavailable if some were expected and none was pooled.
-/
namespace Steward.Mini

structure Counter where
  expected : Nat := 0
  /-- The statuses of the mini-services that were pooled. -/
  recorded : List Status := []
  /-- How many mini-services were not pooled. -/
  omitted : Nat := 0
  deriving DecidableEq, Repr

namespace Counter

def expecting (n : Nat) : Counter := { expected := n }

def expect (c : Counter) (n : Nat) : Counter := { c with expected := n }

def record (c : Counter) (s : Status) : Counter := { c with recorded := c.recorded ++ [s] }

def leaveOut (c : Counter) : Counter := { c with omitted := c.omitted + 1 }

def built (c : Counter) : Nat := c.recorded.length

def count (c : Counter) (s : Status) : Nat := c.recorded.count s

def status (c : Counter) : Status :=
  if 0 < c.expected && c.built = 0 then .unavailable
  else c.recorded.foldl Status.worst .available

@[simp] theorem built_record (c : Counter) (s : Status) :
    (c.record s).built = c.built + 1 := by
  simp [record, built]

@[simp] theorem count_record (c : Counter) (s t : Status) :
    (c.record s).count t = c.count t + if s = t then 1 else 0 := by
  simp [record, count, List.count_singleton]

end Counter

structure Entry (ε : Type) where
  /-- The name of the cell. -/
  id : String
  entity : ε
  cell : CellId

structure Store (ε : Type) where
  manager : String
  entries : List (Entry ε)

namespace Store

variable {ε μ : Type}

def empty (manager : String) : Store ε := ⟨manager, []⟩

def find? (s : Store ε) (id : String) : Option (Entry ε) := s.entries.find? fun e => e.id == id

def contains (s : Store ε) (id : String) : Bool := s.entries.any fun e => e.id == id

def ids (s : Store ε) : List String := s.entries.map (·.id)

def size (s : Store ε) : Nat := s.entries.length

def isEmpty (s : Store ε) : Bool := s.entries.isEmpty

def cells (s : Store ε) : List (String × CellId) := s.entries.map fun e => (e.id, e.cell)

/-- The cell of an id, for callers who insist on it. -/
def get (s : Store ε) (id : String) : Except Fault CellId :=
  match s.find? id with
  | some e => .ok e.cell
  | none => .error (.miniServiceNotFound s.manager id)

def entity? (s : Store ε) (id : String) : Option ε := (s.find? id).map (·.entity)

def add (s : Store ε) (entry : Entry ε) : Except Fault (Store ε) :=
  if s.contains entry.id then .error (.miniServiceAlreadyExists s.manager entry.id)
  else .ok { s with entries := s.entries ++ [entry] }

def remove (s : Store ε) (id : String) : Store ε :=
  { s with entries := s.entries.filter fun e => e.id != id }

def clear (s : Store ε) : Store ε := { s with entries := [] }

def countWhere (s : Store ε) (condition : Entry ε → Bool) : Nat := s.entries.countP condition

def destroyCells : List CellId → PoolHook μ Unit
  | [] => return ()
  | c :: cs => do
    PoolHook.destroy c
    destroyCells cs

def destroyAll (s : Store ε) : PoolHook μ (Store ε) := do
  destroyCells (s.entries.map (·.cell))
  return s.clear

def rebuild (s : Store ε) (id : String) (token : Token) : PoolHook μ (Except Fault Report) :=
  match s.get id with
  | .ok cell => PoolHook.build cell token
  | .error fault => return .error fault

def leaveOut (counter : Counter) (cell : CellId) (notice : Notice) : PoolHook μ Counter := do
  PoolHook.report notice
  PoolHook.destroy cell
  return counter.leaveOut

/-- Makes, builds and pools the mini-service of one entity. It stays out of the pool if it
aborts, if it ends unavailable, or if its id is taken. -/
def enlist (idOf : ε → String) (make : ε → μ) (token : Token) (s : Store ε) (counter : Counter)
    (entity : ε) : PoolHook μ (Store ε × Counter) := do
  let id := idOf entity
  let cell ← PoolHook.enroll id (make entity)
  match ← PoolHook.build cell token with
  | .ok report =>
    if report.status = .unavailable then
      return (s, ← leaveOut counter cell (.miniUnusable s.manager id report.status))
    else
      match s.add ⟨id, entity, cell⟩ with
      | .ok s => return (s, counter.record report.status)
      | .error fault =>
        return (s, ← leaveOut counter cell (.miniRefused s.manager id fault.message))
  | .error fault =>
    return (s, ← leaveOut counter cell (.miniAborted s.manager id fault.message))

def enlistAll (idOf : ε → String) (make : ε → μ) (token : Token) :
    List ε → Store ε → Counter → PoolHook μ (Store ε × Counter)
  | [], s, counter => return (s, counter)
  | entity :: rest, s, counter => do
    let (s, counter) ← enlist idOf make token s counter entity
    enlistAll idOf make token rest s counter

/-- Replaces all mini-services by those of new entities, and counts how they fare. -/
def populate (idOf : ε → String) (make : ε → μ) (entities : List ε) (token : Token)
    (s : Store ε) : PoolHook μ (Store ε × Counter) := do
  let s ← s.destroyAll
  enlistAll idOf make token entities s (.expecting entities.length)

theorem nodup_ids_add {s t : Store ε} {entry : Entry ε} (h : s.add entry = .ok t)
    (hs : s.ids.Nodup) : t.ids.Nodup := by
  unfold add at h
  split at h
  · cases h
  · rename_i hc
    cases h
    simp only [ids, List.map_append, List.map_cons, List.map_nil, List.nodup_append]
    refine ⟨hs, by simp, ?_⟩
    intro a ha b hb hab
    simp only [List.mem_singleton] at hb
    subst hb hab
    simp only [List.mem_map] at ha
    obtain ⟨e, he, hid⟩ := ha
    exact hc (List.any_eq_true.2 ⟨e, he, by simp [hid]⟩)

end Store

end Steward.Mini
