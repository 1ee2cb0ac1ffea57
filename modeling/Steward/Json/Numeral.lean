import Steward.Fault
import Steward.Number.Binary64
import Steward.Text.Basic
/-!
JSON numbers and the values they are read to: whole numbers while they fit into 64 bits, and
binary floating-point numbers otherwise.

A floating-point value is made from at most 64 bits of leading digits by one multiplication or
division with a power of ten, so its last bit may differ from the nearest one.
-/
namespace Steward.Json

open Number (Binary64)

inductive Numeral where
  | natural (n : Nat)
  | negative (n : Nat)
  | real (x : Binary64)

namespace Numeral

def fits (n : Nat) (digit : Char) : Bool := n * 10 + Text.digitValue digit < 2 ^ 64

def leading (n : Nat) : List Char → Nat × List Char
  | [] => (n, [])
  | d :: ds => if fits n d then leading (n * 10 + Text.digitValue d) ds else (n, d :: ds)

/-- `f * 10 ^ exponent`, by one operation for exponents of up to 308. Smaller exponents are
approached in steps; a result out of range is an error. -/
def scale : Nat → Binary64 → Int → Except JsonFlaw Binary64
  | 0, f, _ => .ok f
  | steps + 1, f, exponent =>
    if exponent.natAbs ≤ 308 then
      let power := Binary64.ofDecimal false 1 exponent.natAbs
      if 0 ≤ exponent then
        let r := f.mul power
        if r.isInfinite then .error .malformed else .ok r
      else .ok (f.div power)
    else if f.isZero then .ok f
    else if 0 ≤ exponent then .error .malformed
    else scale steps (f.div (Binary64.ofDecimal false 1 308)) (exponent + 308)

/-- The value of leading digits with a decimal exponent. -/
def assemble (negative : Bool) (significand : Nat) (exponent : Int) :
    Except JsonFlaw Numeral := do
  let f ← scale 8 (.ofNat significand) exponent
  return .real (if negative then f.neg else f)

def exponentLimit : Nat := 2 ^ 31

def exponentPart (negative : Bool) (significand : Nat) (start : Int) (s : List Char) :
    Except JsonFlaw (Numeral × List Char) := do
  let (down, s) := match s with
    | '+' :: r => (false, r)
    | '-' :: r => (true, r)
    | r => (false, r)
  let digits := s.takeWhile Text.isDigit
  let rest := s.drop digits.length
  if digits.isEmpty then
    throw (if rest.isEmpty then .truncated else .malformed)
  let e := Text.valueOf digits
  if e < exponentLimit then
    return (← assemble negative significand (if down then start - e else start + e), rest)
  else if significand ≠ 0 && !down then throw .malformed
  else
    let z := Binary64.zero
    return (.real (if negative then z.neg else z), rest)

def afterDigits (negative : Bool) (significand : Nat) (exponent : Int) (s : List Char) :
    Except JsonFlaw (Numeral × List Char) :=
  match s with
  | 'e' :: r | 'E' :: r => exponentPart negative significand exponent r
  | _ => do return (← assemble negative significand exponent, s)

def fractionPart (negative : Bool) (significand : Nat) (exponent : Int) (s : List Char) :
    Except JsonFlaw (Numeral × List Char) :=
  let digits := s.takeWhile Text.isDigit
  let rest := s.drop digits.length
  if digits.isEmpty then .error (if rest.isEmpty then .truncated else .malformed)
  else
    let (n, dropped) := leading significand digits
    afterDigits negative n (exponent - (digits.length - dropped.length : Nat)) rest

def unsigned (negative : Bool) (s : List Char) : Except JsonFlaw (Numeral × List Char) :=
  let digits := s.takeWhile Text.isDigit
  let rest := s.drop digits.length
  match digits with
  | [] => .error (if s.isEmpty then .truncated else .malformed)
  | '0' :: _ :: _ => .error .malformed
  | _ =>
    let (n, dropped) := leading 0 digits
    match rest with
    | '.' :: r => fractionPart negative n dropped.length r
    | 'e' :: r | 'E' :: r => exponentPart negative n dropped.length r
    | _ =>
      if dropped.isEmpty then
        if !negative then .ok (.natural n, rest)
        else if n = 0 || 2 ^ 63 < n then .ok (.real (Binary64.ofNat n).neg, rest)
        else .ok (.negative n, rest)
      else do return (← assemble negative n dropped.length, rest)

def read (s : List Char) : Except JsonFlaw (Numeral × List Char) :=
  match s with
  | '-' :: r => unsigned true r
  | _ => unsigned false s

def toReal : Numeral → Binary64
  | .natural n => .ofNat n
  | .negative n => (Binary64.ofNat n).neg
  | .real x => x

end Numeral

end Steward.Json
