import Steward.Setting
import Steward.Text.Basic
import Steward.Toml.Quote
/-!
Settings from environment variables. A variable whose name begins with the name of the application
sets what the rest of its name says: two underscores part the names of a path, and case does not
matter. Its value may be written as a value of its kind; whatever is not is a text.
-/
namespace Steward.Config.Environment

open Number (Binary64)
open Text (Scan)
open Text.Scan

def isBlank (c : Char) : Bool :=
  c == ' ' || c == '\t' || c == '\n' || c == '\r' || c.toNat == 12

def isSeparator (c : Char) : Bool :=
  c == ',' || c == '\x7b' || c == '\x7d' || c == '[' || c == ']'

def quoted : Scan String := do
  if !(← sees ['"']) then failure
  Toml.lineString

def fractional : Scan Binary64 := do
  let negative ← sign
  let whole ← run Text.isDigit
  exactly ['.']
  let fraction ← run Text.isDigit
  if whole.isEmpty && fraction.isEmpty then failure
  let scale ← maybe (exponent (someRun Text.isDigit))
  return .ofDecimal negative (Text.valueOf (whole ++ fraction))
    (scale.getD 0 - fraction.length)

def wholeNumber : Scan Int := do
  let negative ← sign
  let n : Int := Text.valueOf (← someRun Text.isDigit)
  let n := if negative then -n else n
  if n < -2 ^ 63 || 2 ^ 64 ≤ n then failure
  return n

def plain (s : List Char) : Setting :=
  match whole? fractional s, whole? wholeNumber s with
  | some x, _ => .real x
  | none, some n => .whole n
  | none, none => .text (String.ofList s)

/-- Items between two characters with commas between them, so many at most. A comma may stand after
the last one. -/
def items {α : Type} (close : Char) (item : Scan α) : Nat → Scan (List α)
  | 0 => failure
  | n + 1 => do
    if ← eat [close] then return []
    let first ← item
    if ← eat [','] then return first :: (← items close item n)
    exactly [close]
    return [first]

def name : Scan String := do
  if ← sees ['"'] then quoted else return String.ofList (← someRun Toml.isBare)

def member (value : Scan Setting) : Scan (String × Setting) := do
  discard (run isBlank)
  let n ← name
  discard (run isBlank)
  exactly ['=']
  return (n, ← value)

def value : (depth : Nat) → Scan Setting
  | 0 => failure
  | depth + 1 => do
    discard (run isBlank)
    let limit := (← get).length + 1
    let v ←
      if ← eat ['t', 'r', 'u', 'e'] then pure (.flag true)
      else if ← eat ['f', 'a', 'l', 's', 'e'] then pure (.flag false)
      else if ← eat ['['] then .list <$> items ']' (value depth) limit
      else if ← eat ['\x7b'] then
        let members ← items '\x7d' (member (value depth)) limit
        pure (.group (members.foldl (fun ms m => Keyed.put ms m.1 m.2) []))
      else if ← sees ['"'] then .text <$> quoted
      else if ← eat ['\''] then
        let c ← one fun _ => true
        exactly ['\'']
        pure (.text (String.ofList [c]))
      else plain <$> Text.trim <$> run fun c => !isSeparator c
    discard (run isBlank)
    return v

def read (s : String) : Setting :=
  (whole? (value (s.length + 1)) s.toList).getD (.text s)

def after? (start s : List Char) : Option (List Char) :=
  if (s.take start.length).map Char.toLower == start.map Char.toLower then
    some (s.drop start.length)
  else none

/-- The parts of a name, and of the part being read. Two underscores or a point end a part. -/
def parts : List Char → List (List Char)
  | [] => [[]]
  | '_' :: '_' :: s => [] :: parts s
  | '.' :: s => [] :: parts s
  | c :: s =>
    match parts s with
    | p :: ps => (c.toLower :: p) :: ps
    | [] => [[c.toLower]]

/-- The path of settings that a variable stands for. No name of it is empty. -/
def path? (start name : String) : Option (List String) := do
  let rest ← after? (start.toList ++ ['_']) (Text.trim name.toList)
  let ps := parts (Text.trim rest)
  if ps.any List.isEmpty then none else some (ps.map String.ofList)

def setting? (start : String) (entry : String × String) : Option Setting := do
  return .nested (← path? start entry.1) (read entry.2)

def settings (start : String) (environment : List (String × String)) : Setting :=
  .layered (environment.filterMap (setting? start))

end Steward.Config.Environment
