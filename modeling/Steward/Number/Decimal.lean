import Steward.Number.Binary64
import Steward.Text.Basic
/-!
The shortest decimal text of a number: the fewest digits that still read back as the number, and
of those the nearest to it. The text is positional, never with an exponent.
-/
namespace Steward.Number

structure Decimal where
  digits : Nat
  exponent : Int
  deriving DecidableEq, Repr

namespace Decimal

def floorLog10 (num den : Nat) : Int :=
  let g : Int := ((toString num).length : Int) - ((toString den).length : Int)
  let fits : Bool :=
    if 0 ≤ g then den * Nat.pow 10 g.toNat ≤ num else den ≤ num * Nat.pow 10 (-g).toNat
  if fits then g else g - 1

def ratio (d : Decimal) : Nat × Nat :=
  if 0 ≤ d.exponent then (d.digits * Nat.pow 10 d.exponent.toNat, 1)
  else (d.digits, Nat.pow 10 (-d.exponent).toNat)

structure Interval where
  low : Nat
  high : Nat
  den : Nat
  closed : Bool

/-- The interval around `mantissa * 2 ^ exponent`, half a step to either side; below a power of
two the step is half as long. -/
def Interval.around (mantissa : Nat) (exponent : Int) : Interval :=
  let (n, d) := Binary64.ratio 1 (exponent - 2)
  let below := if mantissa = 2 ^ 52 && -1074 < exponent then 1 else 2
  ⟨(4 * mantissa - below) * n, (4 * mantissa + 2) * n, d, mantissa % 2 = 0⟩

def Interval.holds (i : Interval) (x : Decimal) : Bool :=
  let (n, d) := x.ratio
  if i.closed then i.low * d ≤ n * i.den && n * i.den ≤ i.high * d
  else i.low * d < n * i.den && n * i.den < i.high * d

def neighbours (num den : Nat) (place : Int) : Decimal × Decimal :=
  let q := if 0 ≤ place then num / (den * Nat.pow 10 place.toNat)
    else num * Nat.pow 10 (-place).toNat / den
  (⟨q, place⟩, ⟨q + 1, place⟩)

def isNearerBelow (num den : Nat) (x y : Decimal) : Bool :=
  let (a, b) := x.ratio
  let (c, d) := y.ratio
  2 * num * b * d < (a * d + c * b) * den

/-- A multiple of `10 ^ place` that reads back as the number; the nearer one if both neighbours
do, the upper one at a tie. -/
def onGrid? (num den : Nat) (interval : Interval) (place : Int) : Option Decimal :=
  let (low, high) := neighbours num den place
  match interval.holds low, interval.holds high with
  | true, true => some (if isNearerBelow num den low high then low else high)
  | true, false => some low
  | false, true => some high
  | false, false => none

/-- The first of so many grids, each ten times finer than the one before, that has a hit. -/
def search (num den : Nat) (interval : Interval) : Nat → Int → Option Decimal
  | 0, _ => none
  | tries + 1, place =>
    match onGrid? num den interval place with
    | some d => some d
    | none => search num den interval tries (place - 1)

/-- The shortest decimal of a positive magnitude. Seventeen digits always suffice. -/
def shortest (mantissa : Nat) (exponent : Int) : Decimal :=
  let (num, den) := Binary64.ratio mantissa exponent
  (search num den (Interval.around mantissa exponent) 17 (floorLog10 num den)).getD ⟨0, 0⟩

def text (d : Decimal) : List Char :=
  let digits := (toString d.digits).toList
  if 0 ≤ d.exponent then digits ++ List.replicate d.exponent.toNat '0'
  else
    let places := (-d.exponent).toNat
    let whole := digits.length - places
    let fraction := (List.replicate (places - digits.length) '0' ++ digits.drop whole).reverse
    let fraction := (fraction.dropWhile (· == '0')).reverse
    let whole := if whole = 0 then ['0'] else digits.take whole
    if fraction.isEmpty then whole else whole ++ '.' :: fraction

end Decimal

/-- The text of a number: whole numbers without a point. -/
def Binary64.text : Binary64 → String
  | .nan => "NaN"
  | .infinite n => if n then "-inf" else "inf"
  | .finite n m e _ =>
    let body := if m = 0 then ['0'] else (Decimal.shortest m e).text
    String.ofList (if n then '-' :: body else body)

def Binary64.hex (x : Binary64) : String := String.ofList (Text.hex 'a' 16 x.bits)

end Steward.Number
