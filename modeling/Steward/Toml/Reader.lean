import Steward.Toml.Scalar
import Steward.Toml.Table
/-!
Reading TOML documents, version 1.0 of the language. Brackets nest less than eighty deep.
-/
namespace Steward.Toml

open Text (Scan)
open Text.Scan

/-- The text after white space, line ends and comments. A comment that holds a control character
is none. -/
def pastBlank (inComment : Bool) : List Char → Option (List Char)
  | [] => some []
  | '\n' :: s => pastBlank false s
  | '\r' :: '\n' :: s => pastBlank false s
  | c :: s =>
    if inComment then (if isPlain c then pastBlank true s else none)
    else if isBlank c then pastBlank false s
    else if c = '#' then pastBlank true s
    else some (c :: s)

def skipBlank : Scan Unit := fun s => (pastBlank false s).map fun rest => ((), rest)

structure Assignment where
  path : List String
  name : String
  setting : Setting

def split (names : List String) : Option (List String × String) :=
  names.getLast?.map fun last => (names.dropLast, last)

def assignment (value : Scan Setting) : Scan Assignment := do
  let some (path, name) := split (← key) | failure
  exactly ['=']
  discard (run isBlank)
  return ⟨path, name, ← value⟩

def arrayItems (value : Scan Setting) : Nat → Scan (List Setting)
  | 0 => failure
  | n + 1 => do
    skipBlank
    if ← eat [']'] then return []
    let item ← value
    skipBlank
    if ← eat [','] then return item :: (← arrayItems value n)
    exactly [']']
    return [item]

/-- The assignments of an inline table up to its end, so many at most. There is no comma after the
last one. -/
def inlineItems (value : Scan Setting) : Nat → Scan (List Assignment)
  | 0 => failure
  | n + 1 => do
    let item ← assignment value
    discard (run isBlank)
    if ← eat [','] then return item :: (← inlineItems value n)
    exactly ['\x7d']
    return [item]

def inlineTable (items : List Assignment) : Option Setting := do
  let es ← items.foldlM (fun (es : Entries) a => es.assign a.path a.name a.setting) []
  return .group (settleEntries es)

def value : (depth : Nat) → Scan Setting
  | 0 => do
    if (← sees ['[']) || (← sees ['\x7b']) then failure
    scalar
  | depth + 1 => do
    let limit := (← get).length + 1
    if ← eat ['['] then return .list (← arrayItems (value depth) limit)
    else if ← eat ['\x7b'] then
      discard (run isBlank)
      if ← eat ['\x7d'] then return .group []
      let some s := inlineTable (← inlineItems (value depth) limit) | failure
      return s
    else scalar

inductive Statement where
  | table (path : List String)
  /-- The next table of a list. -/
  | item (path : List String)
  | assign (assignment : Assignment)

def statement : Scan Statement := do
  if ← eat ['[', '['] then
    let path ← key
    exactly [']', ']']
    return .item path
  else if ← eat ['['] then
    let path ← key
    exactly [']']
    return .table path
  else return .assign (← assignment (value (nesting - 1)))

def endLine : Scan Unit := do
  discard (run isBlank)
  match ← get with
  | [] | '#' :: _ => return ()
  | s => if (lineEnd? s).isNone then failure

structure Draft where
  entries : Entries := []
  header : List String := []

def Draft.add (d : Draft) : Statement → Option Draft
  | .table path => do
    let (parents, name) ← split path
    return ⟨← d.entries.openTable parents name, path⟩
  | .item path => do
    let (parents, name) ← split path
    return ⟨← d.entries.openItem parents name, path⟩
  | .assign a => do
    return { d with entries := ← d.entries.assignUnder d.header a.path a.name a.setting }

def statements : Nat → Draft → Scan Draft
  | 0, _ => failure
  | n + 1, d => do
    skipBlank
    if (← peek?).isNone then return d
    let some d := d.add (← statement) | failure
    endLine
    statements n d

/-- The settings of a document. A mark of the byte order at its start is left out. -/
def read? (text : String) : Option Setting := do
  let s := match text.toList with
    | '\ufeff' :: s => s
    | s => s
  let d ← whole? (statements (s.length + 1) {}) s
  return .group (settleEntries d.entries)

end Steward.Toml
