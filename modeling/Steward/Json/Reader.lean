import Steward.Json.Value
import Steward.Json.Numeral
/-!
Reading JSON by shape. A reader knows what it expects and consumes just that, so a text is judged
from left to right: whatever is wrong first decides between malformed, truncated and mismatched.

Objects are read through a plan for each key. Unknown keys are skipped with their values, whatever
these are; a known key may come once. A record may also be written as the array of its fields.
-/
namespace Steward.Json

abbrev Reader := StateT (List Char) (Except JsonFlaw)

namespace Reader

def fail (flaw : JsonFlaw) : Reader α := throw flaw

def isBlank (c : Char) : Bool := c == ' ' || c == '\n' || c == '\t' || c == '\r'

def skipBlanks : Reader Unit := modify fun s => s.dropWhile isBlank

def peek? : Reader (Option Char) := do return (← get).head?

def advance : Reader Unit := modify (List.drop 1)

def next? : Reader (Option Char) := do
  skipBlanks
  peek?

def next : Reader Char := do
  match ← next? with
  | some c => return c
  | none => fail .truncated

def spell : List Char → Reader Unit
  | [] => return ()
  | c :: cs => do
    match ← peek? with
    | none => fail .truncated
    | some d =>
      if d = c then
        advance
        spell cs
      else fail .malformed

def codeFlaw (s : List Char) : JsonFlaw :=
  if (String.ofList s).utf8ByteSize < 4 then .truncated else .malformed

def shortEscape? : Char → Option Char
  | '"' => some '"'
  | '\\' => some '\\'
  | '/' => some '/'
  | 'b' => some (Char.ofNat 8)
  | 'f' => some (Char.ofNat 12)
  | 'n' => some '\n'
  | 'r' => some '\r'
  | 't' => some '\t'
  | _ => none

def isLeadingSurrogate (n : Nat) : Bool := 0xd800 ≤ n && n ≤ 0xdbff
def isTrailingSurrogate (n : Nat) : Bool := 0xdc00 ≤ n && n ≤ 0xdfff

/-- The contents of a string after its opening quote, and the text after its closing one. Codes
of a surrogate pair make one character; a lone one is malformed. -/
def contents : List Char → Except JsonFlaw (List Char × List Char)
  | [] => .error .truncated
  | '"' :: s => .ok ([], s)
  | '\\' :: 'u' :: a :: b :: c :: d :: s =>
    match Text.hexValueOf? [a, b, c, d] with
    | none => .error (codeFlaw (a :: b :: c :: d :: s))
    | some n =>
      if isTrailingSurrogate n then .error .malformed
      else if isLeadingSurrogate n then
        match s with
        | '\\' :: 'u' :: e :: f :: g :: h :: s =>
          match Text.hexValueOf? [e, f, g, h] with
          | none => .error (codeFlaw (e :: f :: g :: h :: s))
          | some m =>
            if isTrailingSurrogate m then do
              let (cs, rest) ← contents s
              return (Char.ofNat (0x10000 + (n - 0xd800) * 0x400 + (m - 0xdc00)) :: cs, rest)
            else .error .malformed
        | '\\' :: 'u' :: s => .error (codeFlaw s)
        | ['\\'] | [] => .error .truncated
        | _ => .error .malformed
      else do
        let (cs, rest) ← contents s
        return (Char.ofNat n :: cs, rest)
  | '\\' :: 'u' :: s => .error (codeFlaw s)
  | '\\' :: c :: s =>
    match shortEscape? c with
    | none => .error .malformed
    | some e => do
      let (cs, rest) ← contents s
      return (e :: cs, rest)
  | ['\\'] => .error .truncated
  | c :: s =>
    if c.toNat < 32 then .error .malformed
    else do
      let (cs, rest) ← contents s
      return (c :: cs, rest)

def pastContents : List Char → Except JsonFlaw (List Char)
  | [] => .error .truncated
  | '"' :: s => .ok s
  | '\\' :: 'u' :: a :: b :: c :: d :: s =>
    if (Text.hexValueOf? [a, b, c, d]).isSome then pastContents s
    else .error (codeFlaw (a :: b :: c :: d :: s))
  | '\\' :: 'u' :: s => .error (codeFlaw s)
  | '\\' :: c :: s => if (shortEscape? c).isSome then pastContents s else .error .malformed
  | ['\\'] => .error .truncated
  | c :: s => if c.toNat < 32 then .error .malformed else pastContents s

def stringRest : Reader String := fun s => do
  let (cs, rest) ← contents s
  return (String.ofList cs, rest)

def numeral : Reader Numeral := fun s => Numeral.read s

/-- Consumes enough of an unwanted value to tell whether it is good JSON at all. -/
def unwanted : Reader α := do
  match ← peek? with
  | some 'n' =>
    advance
    spell ['u', 'l', 'l']
  | some 't' =>
    advance
    spell ['r', 'u', 'e']
  | some 'f' =>
    advance
    spell ['a', 'l', 's', 'e']
  | some '"' =>
    advance
    discard stringRest
  | some '[' | some '{' => return ← fail .mismatched
  | some c => if c = '-' || Text.isDigit c then discard numeral else fail .malformed
  | none => fail .malformed
  fail .mismatched

def string : Reader String := do
  if (← next) = '"' then
    advance
    stringRest
  else unwanted

def bool : Reader Bool := do
  match ← next with
  | 't' =>
    advance
    spell ['r', 'u', 'e']
    return true
  | 'f' =>
    advance
    spell ['a', 'l', 's', 'e']
    return false
  | _ => unwanted

def number : Reader Numeral := do
  let c ← next
  if c = '-' || Text.isDigit c then numeral else unwanted

def natural (limit : Nat) : Reader Nat := do
  match ← number with
  | .natural n => if n < limit then return n else fail .mismatched
  | _ => fail .mismatched

def real : Reader Number.Binary64 := do return (← number).toReal

def parsed (read? : String → Option α) : Reader α := do
  match read? (← string) with
  | some a => return a
  | none => fail .mismatched

def null : Reader Unit := do
  if (← next) = 'n' then
    advance
    spell ['u', 'l', 'l']
  else unwanted

def optional (r : Reader α) : Reader (Option α) := do
  match ← next? with
  | some 'n' =>
    advance
    spell ['u', 'l', 'l']
    return none
  | _ => return some (← r)

def skipDigits : Reader Unit := modify fun s => s.dropWhile Text.isDigit

def skipSomeDigits : Reader Unit := do
  match ← peek? with
  | some c => if Text.isDigit c then skipDigits else fail .malformed
  | none => fail .malformed

def skipExponent : Reader Unit := do
  match ← peek? with
  | some 'e' | some 'E' =>
    advance
    match ← peek? with
    | some '+' | some '-' => advance
    | _ => pure ()
    skipSomeDigits
  | _ => return ()

def skipNumber : Reader Unit := do
  match ← peek? with
  | some '0' =>
    advance
    match ← peek? with
    | some c => if Text.isDigit c then fail .malformed
    | none => pure ()
  | _ => skipSomeDigits
  match ← peek? with
  | some '.' =>
    advance
    skipSomeDigits
    skipExponent
  | _ => skipExponent

def skipKey : Reader Unit := do
  match ← next? with
  | some '"' =>
    advance
    fun s => do return ((), ← pastContents s)
  | some _ => fail .malformed
  | none => fail .truncated
  match ← next? with
  | some ':' => advance
  | some _ => fail .malformed
  | none => fail .truncated

/-- Closes brackets and steps over a comma, until a further value is due or all is closed.
`ready` says whether a value has just ended. -/
def closeOpen : (opened : List Char) → (ready : Bool) → Reader (List Char)
  | [], _ => return []
  | bracket :: outer, ready => do
    match ← next? with
    | none => fail .truncated
    | some c =>
      if c = ',' && ready then
        advance
        if bracket = '{' then skipKey
        return bracket :: outer
      else if (c = ']' && bracket = '[') || (c = '}' && bracket = '{') then
        advance
        closeOpen outer true
      else if ready then fail .malformed
      else
        if bracket = '{' then skipKey
        return bracket :: outer

/-- Skips the values that are due inside the open brackets. Each round steps over one character
at least. -/
def skipOpen : (rounds : Nat) → (opened : List Char) → Reader Unit
  | 0, _ => fail .truncated
  | rounds + 1, opened => do
    let c ← next
    let opened ←
      if c = '[' || c = '{' then do
        advance
        closeOpen (c :: opened) false
      else do
        match c with
        | 'n' =>
          advance
          spell ['u', 'l', 'l']
        | 't' =>
          advance
          spell ['r', 'u', 'e']
        | 'f' =>
          advance
          spell ['a', 'l', 's', 'e']
        | '"' =>
          advance
          fun s => do return ((), ← pastContents s)
        | '-' =>
          advance
          skipNumber
        | c => if Text.isDigit c then skipNumber else fail .malformed
        closeOpen opened true
    if opened.isEmpty then return () else skipOpen rounds opened

def skip : Reader Unit := do skipOpen ((← get).length + 1) []

inductive KeyPlan (σ : Type) where
  | ignore
  | repeated
  | read (value : Reader σ)

def KeyPlan.fill (slot : Option α) (value : Reader α) (put : α → σ) : KeyPlan σ :=
  if slot.isSome then .repeated else .read (put <$> value)

def colon : Reader Unit := do
  match ← next? with
  | some ':' => advance
  | some _ => fail .malformed
  | none => fail .truncated

def key? (first : Bool) : Reader (Option String) := do
  match ← next? with
  | none => fail .truncated
  | some '}' =>
    advance
    return none
  | some c =>
    if c = ',' && !first then
      advance
      match ← next? with
      | some '"' => pure ()
      | some _ => fail .malformed
      | none => fail .truncated
    else if !(c = '"' && first) then fail .malformed
    advance
    return some (← stringRest)

/-- The members of an object after its brace, each handled by the plan for its key. Each round
steps over one character at least. -/
def members (plan : String → σ → KeyPlan σ) : (rounds : Nat) → (first : Bool) → σ → Reader σ
  | 0, _, _ => fail .truncated
  | rounds + 1, first, state => do
    match ← key? first with
    | none => return state
    | some key =>
      match plan key state with
      | .repeated => fail .mismatched
      | .ignore =>
        colon
        skip
        members plan rounds false state
      | .read value =>
        colon
        members plan rounds false (← value)

def item? (first : Bool) : Reader Bool := do
  match ← next? with
  | none => fail .truncated
  | some ']' => return false
  | some c =>
    if c = ',' && !first then
      advance
      match ← next? with
      | some ']' => fail .malformed
      | some _ => return true
      | none => fail .truncated
    else if first then return true
    else fail .malformed

def item (first : Bool) (r : Reader α) : Reader (Option α) := do
  if ← item? first then return some (← r) else return none

def dueItem (first : Bool) (r : Reader α) : Reader α := do
  match ← item first r with
  | some a => return a
  | none => fail .mismatched

def closeArray : Reader Unit := do
  match ← next? with
  | some ']' => advance
  | some _ => fail .malformed
  | none => fail .truncated

/-- A record: an object read through plans from an empty draft and then completed, or the array
of its fields. -/
def record (plan : String → σ → KeyPlan σ) (draft : σ) (complete : σ → Option α)
    (fields : Reader α) : Reader α := do
  match ← next with
  | '{' =>
    advance
    let filled ← members plan ((← get).length + 1) true draft
    match complete filled with
    | some a => return a
    | none => fail .mismatched
  | '[' =>
    advance
    let a ← fields
    closeArray
    return a
  | _ => unwanted

/-- A value with a name: the name alone, or an object with the name as its key and null as the
value. -/
def named (ofName? : String → Option α) : Reader α := do
  match ← next with
  | '"' => parsed ofName?
  | '{' =>
    advance
    let a ← parsed ofName?
    colon
    null
    match ← next? with
    | some '}' => advance
    | some _ => fail .malformed
    | none => fail .truncated
    return a
  | _ => fail .malformed

def items (r : Reader α) : (rounds : Nat) → (first : Bool) → Reader (List α)
  | 0, _ => fail .truncated
  | rounds + 1, first => do
    match ← item first r with
    | none =>
      closeArray
      return []
    | some a => return a :: (← items r rounds false)

def numberText : Reader String := do
  let before ← get
  discard numeral
  let after ← get
  return String.ofList (before.take (before.length - after.length))

def scalar : Reader Json := do
  match ← next with
  | 'n' =>
    advance
    spell ['u', 'l', 'l']
    return .null
  | 't' =>
    advance
    spell ['r', 'u', 'e']
    return .bool true
  | 'f' =>
    advance
    spell ['a', 'l', 's', 'e']
    return .bool false
  | '"' =>
    advance
    return .string (← stringRest)
  | c => if c = '-' || Text.isDigit c then return .number (← numberText) else fail .malformed

def value : (depth : Nat) → Reader Json
  | 0 => scalar
  | depth + 1 => do
    match ← next with
    | '[' =>
      advance
      return .array (← items (value depth) ((← get).length + 1) true)
    | '{' =>
      advance
      let plan := fun key found => KeyPlan.read do return (key, ← value depth) :: found
      return .object (← members plan ((← get).length + 1) true []).reverse
    | _ => scalar

def depthLimit : Nat := 127

end Reader

def decode (r : Reader α) (text : String) : Except JsonFlaw α := do
  let (a, rest) ← (do
    let a ← r
    Reader.skipBlanks
    return a : Reader α).run text.toList
  if rest.isEmpty then return a else throw .malformed

def parse (text : String) : Except JsonFlaw Json := decode (Reader.value Reader.depthLimit) text

end Steward.Json
