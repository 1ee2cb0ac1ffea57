/-!
Characters as white space and as digits, the numbers that runs of digits stand for, and the names
in the path of a file. A name that is empty or a single point means nothing there.
-/
namespace Steward.Text

def blankRanges : List (Nat × Nat) :=
  [(0x9, 0xd), (0x20, 0x20), (0x85, 0x85), (0xa0, 0xa0), (0x1680, 0x1680), (0x2000, 0x200a),
   (0x2028, 0x2029), (0x202f, 0x202f), (0x205f, 0x205f), (0x3000, 0x3000)]

def isBlank (c : Char) : Bool :=
  blankRanges.any fun range => range.1 ≤ c.toNat && c.toNat ≤ range.2

def trimStart (s : List Char) : List Char := s.dropWhile isBlank

def trim (s : List Char) : List Char := (trimStart (trimStart s).reverse).reverse

def isDigit (c : Char) : Bool := '0' ≤ c && c ≤ '9'

def digitValue (c : Char) : Nat := c.toNat - 48

def valueOf (digits : List Char) : Nat :=
  digits.foldl (fun n c => 10 * n + digitValue c) 0

def hexValue? (c : Char) : Option Nat :=
  if isDigit c then some (digitValue c)
  else if 'a' ≤ c && c ≤ 'f' then some (c.toNat - 87)
  else if 'A' ≤ c && c ≤ 'F' then some (c.toNat - 55)
  else none

def hexValueOf? (digits : List Char) : Option Nat :=
  digits.foldlM (fun n c => (hexValue? c).map (16 * n + ·)) 0

def hexDigit (ten : Char) (n : Nat) : Char :=
  Char.ofNat (if n < 10 then 48 + n else ten.toNat + (n - 10))

def hex (ten : Char) : (width : Nat) → Nat → List Char
  | 0, _ => []
  | width + 1, n => hex ten width (n / 16) ++ [hexDigit ten (n % 16)]

def padded (width n : Nat) : List Char :=
  let digits := (toString n).toList
  List.replicate (width - digits.length) '0' ++ digits

namespace Path

/-- The parts of a text between the characters that satisfy a condition. -/
def splitAt (p : Char → Bool) : List Char → List (List Char)
  | [] => [[]]
  | c :: s =>
    if p c then [] :: splitAt p s
    else match splitAt p s with
      | part :: parts => (c :: part) :: parts
      | [] => [[c]]

def names (path : String) : List String :=
  ((splitAt (· == '/') path.toList).map String.ofList).filter fun n => n != "" && n != "."

def fileName? (path : String) : Option String :=
  match (names path).getLast? with
  | some ".." | none => none
  | some n => some n

def withoutExtension (name : List Char) : List Char :=
  match name.reverse.dropWhile (· != '.') with
  | [] | [_] => name
  | _ :: before => before.reverse

def stem? (path : String) : Option String :=
  (fileName? path).map fun n => String.ofList (withoutExtension n.toList)

end Path

end Steward.Text
