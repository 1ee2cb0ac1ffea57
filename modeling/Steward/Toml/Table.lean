import Steward.Setting
/-!
The tables of a TOML document while it is read. A name is defined once, but a table that so far
exists only because of what stands in it may still get a header of its own, and dotted keys may go
on with a table that dotted keys began.
-/
namespace Steward.Toml

/-- What a name is defined as. -/
inductive Node where
  /-- A value, which is complete. -/
  | value (setting : Setting)
  /-- A table. It is `implied` if no header names it, and `dotted` if dotted keys began it. -/
  | table (implied dotted : Bool) (entries : List (String × Node))
  /-- A list of tables, each begun by a header; headers and keys go on with the last one. -/
  | tables (items : List (List (String × Node)))

abbrev Entries := List (String × Node)

namespace Entries

def define (es : Entries) (name : String) (node : Node) : Option Entries :=
  if (es.lookup name).isSome then none else some (es ++ [(name, node)])

/-- Changes a table at the end of a path, given whether it is dotted. Missing tables come into
being on the way. A dotted path does not go on with a table that has a header. -/
def within (dottedPath : Bool) (change : Bool → Entries → Option Entries) :
    List String → Bool → Entries → Option Entries
  | [], dotted, es => change dotted es
  | name :: path, _, es =>
    match es.lookup name with
    | none => do
      let inner ← within dottedPath change path dottedPath []
      return es ++ [(name, .table true dottedPath inner)]
    | some (.value _) => none
    | some (.table implied dotted inner) =>
      if dottedPath && !implied then none
      else do
        let inner ← within dottedPath change path dotted inner
        return Keyed.put es name (.table implied dotted inner)
    | some (.tables items) => do
      let last ← items.getLast?
      let last ← within dottedPath change path false last
      return Keyed.put es name (.tables (items.dropLast ++ [last]))

/-- Defines a dotted key in a table. The table that a dotted key leads to must have been begun by
dotted keys. -/
def assign (es : Entries) (path : List String) (name : String) (setting : Setting) :
    Option Entries :=
  within true (fun dotted es =>
    if !path.isEmpty && !dotted then none else define es name (.value setting)) path false es

def openTable (es : Entries) (path : List String) (name : String) : Option Entries :=
  within false (fun _ es =>
    match es.lookup name with
    | none => some (es ++ [(name, .table false false [])])
    | some (.table true false inner) => some (Keyed.put es name (.table false false inner))
    | some _ => none) path false es

def openItem (es : Entries) (path : List String) (name : String) : Option Entries :=
  within false (fun _ es =>
    match es.lookup name with
    | none => some (es ++ [(name, .tables [[]])])
    | some (.tables items) => some (Keyed.put es name (.tables (items ++ [[]])))
    | some _ => none) path false es

def assignUnder (es : Entries) (header path : List String) (name : String) (setting : Setting) :
    Option Entries :=
  within false (fun _ es => assign es path name setting) header false es

end Entries

mutual

def Node.settle : Node → Setting
  | .value s => s
  | .table _ _ es => .group (settleEntries es)
  | .tables items => .list (settleItems items)

def settleEntries : List (String × Node) → List (String × Setting)
  | [] => []
  | (name, n) :: es => (name, n.settle) :: settleEntries es

def settleItems : List (List (String × Node)) → List Setting
  | [] => []
  | es :: items => .group (settleEntries es) :: settleItems items

end

end Steward.Toml
