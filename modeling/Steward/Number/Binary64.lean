/-!
Whole numbers and their powers, rounding a quotient of natural numbers to the nearest one, and
binary floating-point numbers of 64 bits, as exact dyadic rationals. Every operation is the exact
one followed by a single rounding (`ofRatio`): to the nearest representable number, ties to even.
-/
namespace Steward.Number

-- A literal power such as `2 ^ 64` stays core's own where a module also knows of monoids. Powers
-- with an exponent that varies are written with `Nat.pow`, for the same reason.
attribute [default_instance high+1] instPowNat

def roundHalfEven (num den : Nat) : Nat :=
  let q := num / den
  let twice := 2 * (num % den)
  if twice < den then q
  else if den < twice then q + 1
  else if q % 2 = 0 then q else q + 1

theorem roundHalfEven_near (num den : Nat) (h : 0 < den) :
    2 * num ≤ 2 * (roundHalfEven num den * den) + den ∧
      2 * (roundHalfEven num den * den) ≤ 2 * num + den := by
  have hd := Nat.div_add_mod num den
  have hm := Nat.mod_lt num h
  have hc : num / den * den = den * (num / den) := Nat.mul_comm _ _
  unfold roundHalfEven
  simp only
  split
  · omega
  · split
    · rw [Nat.add_mul]; omega
    · split
      · omega
      · rw [Nat.add_mul]; omega

/-- The mantissas and exponents that numbers of 64 bits are written with: a full mantissa of 53
bits, or a shorter one at the least exponent. -/
def Canonical (mantissa : Nat) (exponent : Int) : Prop :=
  mantissa < 2 ^ 53 ∧ -1074 ≤ exponent ∧ exponent ≤ 971 ∧
    (2 ^ 52 ≤ mantissa ∨ exponent = -1074)

instance (m : Nat) (e : Int) : Decidable (Canonical m e) := by
  unfold Canonical; infer_instance

inductive Binary64 where
  | finite (negative : Bool) (mantissa : Nat) (exponent : Int)
      (canonical : Canonical mantissa exponent)
  | infinite (negative : Bool)
  | nan
  deriving DecidableEq

namespace Binary64

def floorLog2 (num den : Nat) : Int :=
  let g : Int := (num.log2 : Int) - (den.log2 : Int)
  let fits : Bool :=
    if 0 ≤ g then den * Nat.pow 2 g.toNat ≤ num else den ≤ num * Nat.pow 2 (-g).toNat
  if fits then g else g - 1

def exponentFor (num den : Nat) : Int :=
  if num = 0 then -1074 else max (-1074) (floorLog2 num den - 52)

def ofRatio (negative : Bool) (num den : Nat) : Binary64 :=
  let e := exponentFor num den
  let m :=
    if 0 ≤ e then roundHalfEven num (den * Nat.pow 2 e.toNat)
    else roundHalfEven (num * Nat.pow 2 (-e).toNat) den
  let (m, e) := if m = 2 ^ 53 then (2 ^ 52, e + 1) else (m, e)
  if h : Canonical m e then .finite negative m e h else .infinite negative

def zero : Binary64 := .finite false 0 (-1074) (by decide)

instance : Inhabited Binary64 := ⟨zero⟩

def ofNat (n : Nat) : Binary64 := ofRatio false n 1

def ratio (mantissa : Nat) (exponent : Int) : Nat × Nat :=
  if 0 ≤ exponent then (mantissa * Nat.pow 2 exponent.toNat, 1)
  else (mantissa, Nat.pow 2 (-exponent).toNat)

def isNegative : Binary64 → Bool
  | .finite n _ _ _ | .infinite n => n
  | .nan => false

def isZero : Binary64 → Bool
  | .finite _ m _ _ => m == 0
  | _ => false

def isInfinite : Binary64 → Bool
  | .infinite _ => true
  | _ => false

def neg : Binary64 → Binary64
  | .finite n m e h => .finite (!n) m e h
  | .infinite n => .infinite (!n)
  | .nan => .nan

def mul : Binary64 → Binary64 → Binary64
  | .nan, _ | _, .nan => .nan
  | .infinite n, x => if x.isZero then .nan else .infinite (n != x.isNegative)
  | x, .infinite n => if x.isZero then .nan else .infinite (n != x.isNegative)
  | .finite n m e _, .finite n' m' e' _ =>
    let (a, b) := ratio m e
    let (a', b') := ratio m' e'
    ofRatio (n != n') (a * a') (b * b')

def div : Binary64 → Binary64 → Binary64
  | .nan, _ | _, .nan => .nan
  | .infinite n, x => if x.isInfinite then .nan else .infinite (n != x.isNegative)
  | .finite n _ _ _, .infinite n' => ofRatio (n != n') 0 1
  | .finite n m e _, .finite n' m' e' _ =>
    if m' = 0 then (if m = 0 then .nan else .infinite (n != n'))
    else
      let (a, b) := ratio m e
      let (a', b') := ratio m' e'
      ofRatio (n != n') (a * b') (b * a')

def add : Binary64 → Binary64 → Binary64
  | .nan, _ | _, .nan => .nan
  | .infinite n, .infinite n' => if n = n' then .infinite n else .nan
  | .infinite n, _ | _, .infinite n => .infinite n
  | .finite n m e _, .finite n' m' e' _ =>
    let (a, b) := ratio m e
    let (a', b') := ratio m' e'
    let x : Int := (if n then -1 else 1) * (a * b' : Nat)
    let y : Int := (if n' then -1 else 1) * (a' * b : Nat)
    let s := x + y
    if s = 0 then ofRatio (n && n') 0 1 else ofRatio (s < 0) s.natAbs (b * b')

def sub (x y : Binary64) : Binary64 := x.add y.neg

def lt : Binary64 → Binary64 → Bool
  | .nan, _ | _, .nan => false
  | .infinite n, .infinite n' => n && !n'
  | .infinite n, _ => n
  | _, .infinite n => !n
  | .finite n m e _, .finite n' m' e' _ =>
    let (a, b) := ratio m e
    let (a', b') := ratio m' e'
    let x : Int := (if n then -1 else 1) * (a * b' : Nat)
    let y : Int := (if n' then -1 else 1) * (a' * b : Nat)
    x < y

def max : Binary64 → Binary64 → Binary64
  | .nan, y => y
  | x, .nan => x
  | x, y => if x.lt y then y else x

def bits : Binary64 → Nat
  | .finite n m e _ =>
    (if n then 2 ^ 63 else 0) +
      (if m < 2 ^ 52 then m else (e + 1075).toNat * 2 ^ 52 + (m - 2 ^ 52))
  | .infinite n => (if n then 2 ^ 63 else 0) + 2047 * 2 ^ 52
  | .nan => 2047 * 2 ^ 52 + 2 ^ 51

/-- The number nearest to `digits * 10 ^ exponent`. Exponents far outside the range are not
worked out. -/
def ofDecimal (negative : Bool) (digits : Nat) (exponent : Int) : Binary64 :=
  if digits = 0 then ofRatio negative 0 1
  else
    let magnitude : Int := exponent + (toString digits).length
    if 400 < magnitude then .infinite negative
    else if magnitude < -400 then ofRatio negative 0 1
    else if 0 ≤ exponent then ofRatio negative (digits * Nat.pow 10 exponent.toNat) 1
    else ofRatio negative digits (Nat.pow 10 (-exponent).toNat)

end Binary64

end Steward.Number
