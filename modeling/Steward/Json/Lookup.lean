import Steward.Json.Numeral
import Steward.Json.Value
/-!
Looking members up without fuss: what is missing or of another kind takes a default.
-/
namespace Steward.Json

def textAt (j : Json) (name : String) (absent : String := "") : String :=
  match j.get? name with
  | some (.string s) => s
  | _ => absent

def textAt? (j : Json) (name : String) : Option String :=
  match j.get? name with
  | some (.string s) => some s
  | _ => none

def natOf? : Json → Option Nat
  | .number t =>
    match Numeral.read t.toList with
    | .ok (.natural n, []) => some n
    | _ => none
  | _ => none

def intOf? : Json → Option Int
  | .number t =>
    match Numeral.read t.toList with
    | .ok (.natural n, []) => some n
    | .ok (.negative n, []) => some (-n)
    | _ => none
  | _ => none

def natAt? (j : Json) (name : String) : Option Nat := j.get? name >>= natOf?

def natAt (j : Json) (name : String) (absent : Nat := 0) : Nat := (natAt? j name).getD absent

def boolAt (j : Json) (name : String) (absent : Bool := false) : Bool :=
  match j.get? name with
  | some (.bool b) => b
  | _ => absent

def itemsAt (j : Json) (name : String) : List Json := ((j.get? name).map Json.items).getD []

def textOf : Json → String
  | .string s => s
  | _ => ""

def textsAt (j : Json) (name : String) : List String := (itemsAt j name).map textOf

end Steward.Json
