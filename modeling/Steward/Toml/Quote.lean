import Steward.Text.Basic
import Steward.Text.Scan
/-!
Strings of TOML documents. There are four kinds: basic ones, in which a backslash begins an escape,
and literal ones, in which nothing does; and each of these on one line or on several.
-/
namespace Steward.Toml

open Text (Scan)
open Text.Scan

def isBlank (c : Char) : Bool := c == ' ' || c == '\t'

def isPlain (c : Char) : Bool := c == '\t' || 32 ≤ c.toNat && c.toNat ≠ 127

def lineEnd? : List Char → Option (List Char)
  | '\n' :: s => some s
  | '\r' :: '\n' :: s => some s
  | _ => none

def shortEscape? : Char → Option Char
  | '"' => some '"'
  | '\\' => some '\\'
  | 'b' => some (Char.ofNat 8)
  | 'f' => some (Char.ofNat 12)
  | 'n' => some '\n'
  | 'r' => some '\r'
  | 't' => some '\t'
  | _ => none

def coded? (digits : List Char) : Option Char := do
  let n ← Text.hexValueOf? digits
  if n.isValidChar then some (Char.ofNat n) else none

def basic : List Char → Option (List Char × List Char)
  | '"' :: s => some ([], s)
  | '\\' :: 'u' :: a :: b :: c :: d :: s => do
    let x ← coded? [a, b, c, d]
    let (cs, rest) ← basic s
    return (x :: cs, rest)
  | '\\' :: 'U' :: a :: b :: c :: d :: e :: f :: g :: h :: s => do
    let x ← coded? [a, b, c, d, e, f, g, h]
    let (cs, rest) ← basic s
    return (x :: cs, rest)
  | '\\' :: c :: s => do
    let x ← shortEscape? c
    let (cs, rest) ← basic s
    return (x :: cs, rest)
  | c :: s => do
    if !isPlain c || c == '\\' then failure
    let (cs, rest) ← basic s
    return (c :: cs, rest)
  | [] => none

def literal : List Char → Option (List Char × List Char)
  | '\'' :: s => some ([], s)
  | c :: s => do
    if !isPlain c then failure
    let (cs, rest) ← literal s
    return (c :: cs, rest)
  | [] => none

/-- The end of a string of several lines, if it ends here: three quotes. Up to two quotes before
these belong to the contents. -/
def closing? (quote : Char) : List Char → Option (List Char × List Char)
  | a :: b :: c :: s =>
    if a = quote ∧ b = quote ∧ c = quote then
      let more := (s.take 2).takeWhile (· == quote)
      some (more, s.drop more.length)
    else none
  | _ => none

/-- The contents of a basic string of several lines. While `skipping`, white space and line ends
are left out, as they are after a backslash that ends a line. -/
def basicLines (skipping : Bool) : List Char → Option (List Char × List Char)
  | [] => none
  | '\r' :: '\n' :: s => do
    let (cs, rest) ← basicLines skipping s
    return (if skipping then cs else '\n' :: cs, rest)
  | '\n' :: s => do
    let (cs, rest) ← basicLines skipping s
    return (if skipping then cs else '\n' :: cs, rest)
  | '\\' :: 'u' :: a :: b :: c :: d :: s => do
    let x ← coded? [a, b, c, d]
    let (cs, rest) ← basicLines false s
    return (x :: cs, rest)
  | '\\' :: 'U' :: a :: b :: c :: d :: e :: f :: g :: h :: s => do
    let x ← coded? [a, b, c, d, e, f, g, h]
    let (cs, rest) ← basicLines false s
    return (x :: cs, rest)
  | '\\' :: c :: s =>
    if (lineEnd? ((c :: s).dropWhile isBlank)).isSome then basicLines true (c :: s)
    else do
      let x ← shortEscape? c
      let (cs, rest) ← basicLines false s
      return (x :: cs, rest)
  | c :: s =>
    match closing? '"' (c :: s) with
    | some found => some found
    | none =>
      if skipping && isBlank c then basicLines true s
      else if !isPlain c || c == '\\' then none
      else do
        let (cs, rest) ← basicLines false s
        return (c :: cs, rest)

def literalLines : List Char → Option (List Char × List Char)
  | [] => none
  | '\r' :: '\n' :: s => do
    let (cs, rest) ← literalLines s
    return ('\n' :: cs, rest)
  | '\n' :: s => do
    let (cs, rest) ← literalLines s
    return ('\n' :: cs, rest)
  | c :: s =>
    match closing? '\'' (c :: s) with
    | some found => some found
    | none =>
      if !isPlain c then none
      else do
        let (cs, rest) ← literalLines s
        return (c :: cs, rest)

def afterLineEnd (s : List Char) : List Char := (lineEnd? s).getD s

def lineString : Scan String := fun s => do
  let (cs, rest) ← match s with
    | '"' :: s => basic s
    | '\'' :: s => literal s
    | _ => none
  return (String.ofList cs, rest)

def linesString : Scan String := fun s => do
  let (cs, rest) ← match s with
    | '"' :: '"' :: '"' :: s => basicLines false (afterLineEnd s)
    | '\'' :: '\'' :: '\'' :: s => literalLines (afterLineEnd s)
    | _ => none
  return (String.ofList cs, rest)

def anyString : Scan String := do
  if (← sees ['"', '"', '"']) || (← sees ['\'', '\'', '\'']) then linesString else lineString

def isBare (c : Char) : Bool := c.isAlphanum || c == '_' || c == '-'

/-- One name: a bare one, or a string on one line. -/
def name : Scan String := do
  match ← peek? with
  | some '"' | some '\'' => lineString
  | _ => return String.ofList (← someRun isBare)

def nesting : Nat := 80

/-- The names of a dotted key, so many at most. -/
def names : Nat → Scan (List String)
  | 0 => failure
  | n + 1 => do
    discard (run isBlank)
    let first ← name
    discard (run isBlank)
    if ← eat ['.'] then return first :: (← names n) else return [first]

def key : Scan (List String) := names (nesting - 1)

end Steward.Toml
