import Steward.Build
/-!
What happened to a component, and the bus that tells it to whoever listens. Replaying the events
of a component gives its status. The bus keeps the last events for listeners that are slow; one
that falls further behind is told how many events it lost.
-/
namespace Steward

inductive Event where
  | built (component : String) (token : Token) (outcome : Outcome) (previous status : Status)
  | destroyed (component : String)
  /-- The status was assigned without a build pass. -/
  | statusChanged (component : String) (previous status : Status)
  | credentialRotated (component : String) (attempts : UInt32)
  /-- Rotation gave up; the old credential stays. -/
  | rotationExhausted (component : String) (attempts : UInt32)
  deriving DecidableEq, Repr

namespace Event

def component : Event → String
  | .built c _ _ _ _ | .destroyed c | .statusChanged c _ _ | .credentialRotated c _
  | .rotationExhausted c _ => c

def replay (before : Status) : Event → Status
  | .built _ _ _ _ status | .statusChanged _ _ status => status
  | .destroyed _ => .unavailable
  | .credentialRotated _ _ | .rotationExhausted _ _ => before

def previous? : Event → Option Status
  | .built _ _ _ previous _ | .statusChanged _ previous _ => some previous
  | _ => none

end Event

structure Listener where
  id : Nat
  /-- How many events were sent before the next one to hear. -/
  heard : Nat
  deriving DecidableEq, Repr

structure Bus where
  /-- How many events are kept, a power of two. -/
  capacity : Nat
  /-- How many events were ever sent. -/
  sent : Nat := 0
  /-- The events that are kept, the oldest first. -/
  kept : List Event := []
  listeners : List Listener := []
  /-- How many listeners there ever were. -/
  subscriptions : Nat := 0
  deriving DecidableEq, Repr

namespace Bus

def roundUp (n : Nat) : Nat :=
  let k := n.log2
  if Nat.pow 2 k < n then Nat.pow 2 (k + 1) else Nat.pow 2 k

def withCapacity (capacity : Nat) : Bus := { capacity := roundUp (max capacity 1) }

instance : Inhabited Bus := ⟨withCapacity 256⟩

def isHeard (b : Bus) : Bool := !b.listeners.isEmpty

/-- Sends an event. One that nobody hears is dropped. -/
def send (b : Bus) (e : Event) : Bus :=
  if b.isHeard then
    let kept := b.kept ++ [e]
    { b with sent := b.sent + 1, kept := kept.drop (kept.length - b.capacity) }
  else b

def subscribe (b : Bus) : Bus × Nat :=
  ({ b with
    listeners := b.listeners ++ [⟨b.subscriptions, b.sent⟩]
    subscriptions := b.subscriptions + 1 }, b.subscriptions)

def unsubscribe (b : Bus) (id : Nat) : Bus :=
  { b with listeners := b.listeners.filter fun l => l.id != id }

structure Backlog where
  lost : Nat
  events : List Event

def drain (b : Bus) (id : Nat) : Bus × Backlog :=
  match b.listeners.find? fun l => l.id == id with
  | none => (b, ⟨0, []⟩)
  | some l =>
    let oldest := b.sent - b.kept.length
    ({ b with listeners := b.listeners.map fun l =>
        if l.id = id then { l with heard := b.sent } else l },
      ⟨oldest - l.heard, b.kept.drop (l.heard - oldest)⟩)

theorem roundUp_le (n : Nat) : n ≤ roundUp n := by
  simp only [roundUp, Nat.pow_eq]
  split
  · exact Nat.le_of_lt Nat.lt_log2_self
  · omega

end Bus

end Steward
