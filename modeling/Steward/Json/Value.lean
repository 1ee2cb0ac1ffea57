import Steward.Text.Basic
/-!
JSON values, and their compact text: no white space, members in the order of the value, and only
quotes, backslashes and control characters escaped.
-/
namespace Steward

/-- A JSON value. Members keep their order; a number is kept as it is written. -/
inductive Json where
  | null
  | bool (value : Bool)
  | number (text : String)
  | string (value : String)
  | array (items : List Json)
  | object (members : List (String × Json))
  deriving BEq, Repr

namespace Json

instance : Inhabited Json := ⟨.null⟩

def ofNat (n : Nat) : Json := .number (toString n)

def ofOption (encode : α → Json) : Option α → Json
  | some a => encode a
  | none => .null

def strings (items : List String) : Json := .array (items.map .string)

/-- The members of an object; none for any other value. -/
def members : Json → List (String × Json)
  | .object ms => ms
  | _ => []

def items : Json → List Json
  | .array is => is
  | _ => []

def get? (j : Json) (name : String) : Option Json :=
  (j.members.reverse.find? fun m => m.1 == name).map (·.2)

def escapeChar (c : Char) : List Char :=
  match c with
  | '"' => ['\\', '"']
  | '\\' => ['\\', '\\']
  | '\n' => ['\\', 'n']
  | '\r' => ['\\', 'r']
  | '\t' => ['\\', 't']
  | c =>
    if c.toNat = 8 then ['\\', 'b']
    else if c.toNat = 12 then ['\\', 'f']
    else if c.toNat < 32 then ['\\', 'u'] ++ Text.hex 'a' 4 c.toNat
    else [c]

def quoted (s : String) : List Char :=
  '"' :: s.toList.flatMap escapeChar ++ ['"']

def commas : List (List Char) → List Char
  | [] => []
  | [t] => t
  | t :: ts => t ++ ',' :: commas ts

mutual

def chars : Json → List Char
  | .null => ['n', 'u', 'l', 'l']
  | .bool true => ['t', 'r', 'u', 'e']
  | .bool false => ['f', 'a', 'l', 's', 'e']
  | .number t => t.toList
  | .string s => quoted s
  | .array is => '[' :: commas (itemChars is) ++ [']']
  | .object ms => '{' :: commas (memberChars ms) ++ ['}']

def itemChars : List Json → List (List Char)
  | [] => []
  | j :: js => chars j :: itemChars js

def memberChars : List (String × Json) → List (List Char)
  | [] => []
  | (name, j) :: ms => (quoted name ++ ':' :: chars j) :: memberChars ms

end

def text (j : Json) : String := String.ofList j.chars

end Json

end Steward
