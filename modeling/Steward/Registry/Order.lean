/-!
Putting things after what they need. Things have names and stand in an order of their own; of all
things that are ready, the one that stands first is placed next. If none is ready while some are
left, following needs among those that are left runs into a cycle.
-/
namespace Steward.Registry.Order

variable {α : Type} (name : α → String) (needs : α → List String)

def ready? (things : List α) (placed : List String) : Option α :=
  things.find? fun t => !placed.contains (name t) && (needs t).all placed.contains

def missing? (things : List α) (placed : List String) (t : α) : Option α :=
  things.find? fun u => (needs t).contains (name u) && !placed.contains (name u)

/-- Follows missing needs from the end of a path until the path meets itself, and returns the
closed part. Every round lengthens the path by a thing that was not on it. -/
def closeCycle (things : List α) (placed : List String) : (rounds : Nat) → List α → List String
  | 0, path => path.map name
  | rounds + 1, path =>
    match path.getLast? with
    | none => []
    | some last =>
      match missing? name needs things placed last with
      | none => path.map name
      | some next =>
        if (path.map name).contains (name next) then
          (path.map name).dropWhile (· != name next) ++ [name next]
        else closeCycle things placed rounds (path ++ [next])

def findCycle (things : List α) (placed : List String) : List String :=
  match things.find? fun t => !placed.contains (name t) with
  | none => []
  | some start => closeCycle name needs things placed things.length [start]

/-- Places the remaining number of things after those that are placed already. -/
def arrange (things : List α) : (left : Nat) → (placed : List α) → Except (List String) (List α)
  | 0, placed => .ok placed
  | left + 1, placed =>
    match ready? name needs things (placed.map name) with
    | some t => arrange things left (placed ++ [t])
    | none => .error (findCycle name needs things (placed.map name))

/-- All things, each after what it needs, or a cycle of needs. -/
def sorted (things : List α) : Except (List String) (List α) :=
  arrange name needs things things.length []

end Steward.Registry.Order
