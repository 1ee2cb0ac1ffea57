import Steward.Setting
import Steward.Time.Instant
import Steward.Toml.Quote
/-!
Dates, times and numbers of TOML documents. Whole numbers have 64 bits with a sign; underscores may
stand between digits.
-/
namespace Steward.Toml

open Number (Binary64)
open Text (Scan)
open Text.Scan

/-- Two digits within bounds. -/
def pair (low high : Nat) : Scan Nat := do
  let n := Text.valueOf (← times Text.isDigit 2)
  if n < low || high < n then failure
  return n

def date : Scan Unit := do
  let year := Text.valueOf (← times Text.isDigit 4)
  exactly ['-']
  let month ← pair 1 12
  exactly ['-']
  discard (pair 1 (Instant.daysInMonth year month))

def timeOfDay : Scan Unit := do
  discard (pair 0 23)
  exactly [':']
  discard (pair 0 59)
  exactly [':']
  discard (pair 0 60)
  discard (maybe do
    exactly ['.']
    discard (someRun Text.isDigit))

def offset : Scan Unit := do
  let sign ← one fun c => c == 'Z' || c == 'z' || c == '+' || c == '-'
  if sign == '+' || sign == '-' then
    discard (pair 0 23)
    exactly [':']
    discard (pair 0 59)

def dateTime : Scan Unit := do
  match ← maybe date with
  | some _ =>
    discard (maybe do
      discard (one fun c => c == 'T' || c == 't' || c == ' ')
      timeOfDay
      discard (maybe offset))
  | none => timeOfDay

def moment : Scan Setting := do
  dateTime
  return .group [("date or time", .text "")]

def moreDigits (p : Char → Bool) : List Char → List Char × List Char
  | '_' :: c :: s =>
    if p c then
      let (ds, rest) := moreDigits p s
      (c :: ds, rest)
    else ([], '_' :: c :: s)
  | c :: s =>
    if p c then
      let (ds, rest) := moreDigits p s
      (c :: ds, rest)
    else ([], c :: s)
  | [] => ([], [])

/-- A run of digits, which may have single underscores in it; these are left out. -/
def digits (p : Char → Bool) : Scan (List Char) := do
  let first ← one p
  return first :: (← fun s => some (moreDigits p s))

def decimalDigits : Scan (List Char) := do
  if ← eat ['0'] then return ['0'] else digits Text.isDigit

def fractional : Scan Setting := do
  let negative ← sign
  let whole ← decimalDigits
  let fraction ← maybe do
    exactly ['.']
    digits Text.isDigit
  let scale ← maybe (exponent (digits Text.isDigit))
  if fraction.isNone && scale.isNone then failure
  let fraction := fraction.getD []
  let x := Binary64.ofDecimal negative (Text.valueOf (whole ++ fraction))
    (scale.getD 0 - fraction.length)
  if x.isInfinite && !negative then failure
  return .real x

/-- A number that has no digits. -/
def named : Scan Setting := do
  let negative ← sign
  if ← eat ['i', 'n', 'f'] then return .real (.infinite negative)
  exactly ['n', 'a', 'n']
  return .real .nan

/-- A whole number if it has 64 bits. -/
def inRange (n : Int) : Scan Setting := do
  if n < -2 ^ 63 || 2 ^ 63 ≤ n then failure
  return .whole n

def isOctal (c : Char) : Bool := '0' ≤ c && c ≤ '7'
def isBinary (c : Char) : Bool := c == '0' || c == '1'
def isHex (c : Char) : Bool := (Text.hexValue? c).isSome

def valueToBase (base : Nat) (ds : List Char) : Nat :=
  ds.foldl (fun n c => base * n + (Text.hexValue? c).getD 0) 0

def wholeNumber : Scan Setting := do
  if ← eat ['0', 'x'] then inRange (valueToBase 16 (← digits isHex))
  else if ← eat ['0', 'o'] then inRange (valueToBase 8 (← digits isOctal))
  else if ← eat ['0', 'b'] then inRange (valueToBase 2 (← digits isBinary))
  else
    let negative ← sign
    let n : Int := Text.valueOf (← decimalDigits)
    inRange (if negative then -n else n)

def truth : Scan Setting := do
  if ← eat ['t', 'r', 'u', 'e'] then return .flag true
  exactly ['f', 'a', 'l', 's', 'e']
  return .flag false

def scalar : Scan Setting := do
  match ← peek? with
  | some '"' | some '\'' => return .text (← anyString)
  | _ => truth <|> moment <|> fractional <|> named <|> wholeNumber

end Steward.Toml
