import Steward.Number.Decimal
import Steward.Toml.Quote
/-!
Writing TOML documents. A string is written in the plainest of the forms that can hold it.
-/
namespace Steward.Toml

open Number (Binary64)

def longestRun (c : Char) (s : List Char) : Nat :=
  (s.foldl (fun (run, longest) d =>
    let run := if d = c then run + 1 else 0
    (run, max run longest)) (0, 0)).2

def isControl (c : Char) : Bool := !isPlain c && c != '\n'

inductive Form where
  | basic
  | literal
  | basicLines
  | literalLines
  deriving DecidableEq, Repr

namespace Form

def delimiter : Form → List Char
  | .basic => ['"']
  | .literal => ['\'']
  | .basicLines => ['"', '"', '"']
  | .literalLines => ['\'', '\'', '\'']

def isLines : Form → Bool
  | .basicLines | .literalLines => true
  | _ => false

def hasEscapes : Form → Bool
  | .basic | .basicLines => true
  | _ => false

def ofString (s : List Char) : Form :=
  let control := s.any isControl
  let backslash := s.contains '\\'
  let newline := s.contains '\n'
  let double := longestRun '"' s
  let single := longestRun '\'' s
  if !control && !backslash && double = 0 && !newline then .basic
  else if !control && single = 0 && !newline then .literal
  else if !control && !backslash && double ≤ 2 then .basicLines
  else if !control && single ≤ 2 then .literalLines
  else if newline then .basicLines
  else .basic

def ofName (s : List Char) : Form :=
  let control := s.any fun c => !isPlain c
  if !control && !s.contains '\\' && !s.contains '"' then .basic
  else if !control && !s.contains '\'' then .literal
  else .basic

end Form

def escaped (c : Char) : List Char :=
  match c with
  | '"' => ['\\', '"']
  | '\\' => ['\\', '\\']
  | '\n' => ['\\', 'n']
  | '\r' => ['\\', 'r']
  | '\t' => ['\\', 't']
  | c =>
    if c.toNat = 8 then ['\\', 'b']
    else if c.toNat = 12 then ['\\', 'f']
    else ['\\', 'u'] ++ Text.hex 'A' 4 c.toNat

/-- The contents of a basic string after `quotes` quotes in a row. Of quotes in a row so many stay
as they are. -/
def basicBody (allowed : Nat) (lines : Bool) (quotes : Nat) : List Char → List Char
  | [] => []
  | c :: s =>
    if c = '"' then
      if quotes < allowed then c :: basicBody allowed lines (quotes + 1) s
      else escaped c ++ basicBody allowed lines 0 s
    else if c = '\n' && lines then c :: basicBody allowed lines 0 s
    else if c = '\\' || c = '\t' || !isPlain c then escaped c ++ basicBody allowed lines 0 s
    else c :: basicBody allowed lines 0 s

def inForm (f : Form) (s : List Char) : List Char :=
  let start := if f.isLines && s.contains '\n' then ['\n'] else []
  let body := if f.hasEscapes then basicBody (if f.isLines then 2 else 0) f.isLines 0 s else s
  f.delimiter ++ start ++ body ++ f.delimiter

def stringText (s : String) : List Char := inForm (.ofString s.toList) s.toList

def nameText (s : String) : List Char :=
  if !s.isEmpty && s.toList.all isBare then s.toList
  else inForm (.ofName s.toList) s.toList

def realText (x : Binary64) : List Char :=
  let t := x.text.toList
  match x with
  | .finite _ _ _ _ => if t.contains '.' then t else t ++ ['.', '0']
  | .infinite _ => t
  | .nan => ['n', 'a', 'n']

def truthText (b : Bool) : List Char := (toString b).toList

def assignmentLine (name : String) (value : List Char) : List Char :=
  nameText name ++ [' ', '=', ' '] ++ value ++ ['\n']

def tableText (name : String) (entries : List (String × List Char)) : List Char :=
  ['\n', '['] ++ nameText name ++ [']', '\n'] ++ entries.flatMap fun e => assignmentLine e.1 e.2

end Steward.Toml
