import Steward.Text.Basic
/-!
Scanning a text from left to right. A scanner consumes the start of a text and gives a value, or
it fails; what a failure was about is not kept.
-/
namespace Steward.Text

abbrev Scan := StateT (List Char) Option

namespace Scan

variable {α : Type}

def peek? : Scan (Option Char) := do return (← get).head?

def sees (t : List Char) : Scan Bool := do return t.isPrefixOf (← get)

def one (p : Char → Bool) : Scan Char
  | c :: s => if p c then some (c, s) else none
  | [] => none

def exactly (t : List Char) : Scan Unit := fun s =>
  if t.isPrefixOf s then some ((), s.drop t.length) else none

def eat (t : List Char) : Scan Bool := fun s =>
  if t.isPrefixOf s then some (true, s.drop t.length) else some (false, s)

/-- All characters up to the first one that fails a condition. -/
def run (p : Char → Bool) : Scan (List Char) := fun s => some (s.takeWhile p, s.dropWhile p)

def someRun (p : Char → Bool) : Scan (List Char) := do
  let first ← one p
  return first :: (← run p)

def times (p : Char → Bool) : Nat → Scan (List Char)
  | 0 => return []
  | n + 1 => do
    let c ← one p
    return c :: (← times p n)

def maybe (scan : Scan α) : Scan (Option α) := fun s =>
  match scan s with
  | some (a, rest) => some (some a, rest)
  | none => some (none, s)

/-- A sign, if there is one, and whether it is a minus. -/
def sign : Scan Bool := do
  if ← eat ['-'] then return true
  discard (eat ['+'])
  return false

def exponent (digits : Scan (List Char)) : Scan Int := do
  discard (one fun c => c == 'e' || c == 'E')
  let negative ← sign
  let n : Int := valueOf (← digits)
  return if negative then -n else n

def whole? (scan : Scan α) (s : List Char) : Option α :=
  match scan s with
  | some (a, []) => some a
  | _ => none

end Scan

end Steward.Text
