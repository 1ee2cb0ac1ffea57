import Steward.Number.Binary64
/-!
Settings as they are found in files and in the environment, before they are known to make a
configuration, and the lists of named values that they are made of. Settings from several places
lie over one another like layers.
-/
namespace Steward

namespace Keyed

variable {α : Type}

def put : List (String × α) → String → α → List (String × α)
  | [], name, value => [(name, value)]
  | (n, v) :: rest, name, value =>
    if n = name then (n, value) :: rest else (n, v) :: put rest name value

theorem lookup_put (entries : List (String × α)) (name other : String) (value : α) :
    (put entries name value).lookup other =
      if other = name then some value else entries.lookup other := by
  induction entries with
  | nil =>
    by_cases h : other = name
    · simp [put, h]
    · simp [put, List.lookup_cons, beq_eq_false_iff_ne.2 h, h]
  | cons entry rest ih =>
    obtain ⟨n, v⟩ := entry
    by_cases ho : other = n
    · subst ho
      by_cases hn : other = name <;> simp [put, hn]
    · have hb : (other == n) = false := beq_eq_false_iff_ne.2 ho
      by_cases hn : n = name
      · have hne : other ≠ name := hn ▸ ho
        simp [put, hn, List.lookup_cons, beq_eq_false_iff_ne.2 hne, hne]
      · simp [put, hn, List.lookup_cons, hb, ih]

end Keyed

inductive Setting where
  | text (value : String)
  | flag (value : Bool)
  | whole (value : Int)
  | real (value : Number.Binary64)
  | list (items : List Setting)
  /-- A name occurs once. -/
  | group (members : List (String × Setting))

namespace Setting

instance : Inhabited Setting := ⟨.group []⟩

mutual

def laidOver : (upper lower : Setting) → Setting
  | .group ms, .group lower => .group (membersOver ms lower)
  | upper, _ => upper

def membersOver : List (String × Setting) → List (String × Setting) → List (String × Setting)
  | [], lower => lower
  | (name, s) :: ms, lower =>
    let merged := match lower.lookup name with
      | some t => laidOver s t
      | none => s
    membersOver ms (Keyed.put lower name merged)

end

def nested : List String → Setting → Setting
  | [], s => s
  | name :: path, s => .group [(name, nested path s)]

def layered (layers : List Setting) : Setting :=
  layers.foldl (fun lower upper => upper.laidOver lower) (.group [])

end Setting

end Steward
