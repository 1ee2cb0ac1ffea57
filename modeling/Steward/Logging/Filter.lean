import Steward.Config.Basic
import Steward.Logging.Notice
import Steward.Text.Basic
/-!
Filters for the log, and setting the log up. A filter is written as directives with commas
between them: a level, or the start of a target, or both with an equals sign between them. The
directive with the longest target that fits a line decides whether the line is written. A directive
may also ask for fields that the line must have; one that asks for a span or for the value of a
field fits no line here. The log of a process is set up once.
-/
namespace Steward.Logging

abbrev Limit := Nat

def limitOf? (word : List Char) : Option Limit :=
  let digits := match word with
    | '+' :: ds => ds
    | ds => ds
  if !digits.isEmpty && digits.all Text.isDigit then
    let n := Text.valueOf digits
    if n ≤ Level.trace.rank then some n else none
  else match String.ofList (word.map Char.toLower) with
    | "off" => some 0
    | "error" => some Level.error.rank
    | "warn" => some Level.warn.rank
    | "info" => some Level.info.rank
    | "debug" => some Level.debug.rank
    | "trace" => some Level.trace.rank
    | _ => none

def limitOrAll? (word : List Char) : Option Limit :=
  if word.isEmpty then some Level.trace.rank else limitOf? word

structure Directive where
  limit : Limit := Level.trace.rank
  target : Option (List Char) := none
  /-- Whether it asks for a span by its name. -/
  asksSpan : Bool := false
  /-- What it asks for of fields. -/
  fields : List (List Char) := []
  deriving DecidableEq, Repr

namespace Directive

inductive Stage where
  | beginning
  | name (start : Nat)
  | span (start : Nat)
  | field (start : Nat)
  | afterField
  | afterSpan
  | level (start : Nat)

def piece (text : List Char) (start stop : Nat) : List Char := (text.drop start).take (stop - start)

def beginsName (c : Char) : Bool :=
  c == '-' || c == ':' || c == '_' || c.isAlphanum || 128 ≤ c.toNat

def step (text : List Char) (d : Directive) (stage : Stage) (place : Nat) (c : Char) :
    Option (Directive × Stage) :=
  match stage with
  | .beginning =>
    if c = '[' then some (d, .span (place + 1))
    else if beginsName c then some (d, .name place)
    else none
  | .name start =>
    if c = '=' then some ({ d with target := some (piece text start place) }, .level (place + 1))
    else if c = '[' then
      some ({ d with target := some (piece text start place) }, .span (place + 1))
    else some (d, stage)
  | .span start =>
    let asksSpan := !(piece text start place).isEmpty
    if c = ']' then some ({ d with asksSpan := true }, .afterSpan)
    else if c = '\x7b' then some ({ d with asksSpan }, .field (place + 1))
    else some (d, stage)
  | .field start =>
    if c = '\x7d' then
      let f := piece text start place
      if f.isEmpty then none else some ({ d with fields := d.fields ++ [f] }, .afterField)
    else some (d, stage)
  | .afterField => if c = ']' then some (d, .afterSpan) else none
  | .afterSpan => if c = '=' then some (d, .level (place + 1)) else none
  | .level _ => some (d, stage)

def finish (text : List Char) (d : Directive) : Stage → Option Directive
  | .name start =>
    let word := text.drop start
    match limitOrAll? word with
    | some limit => some { d with limit }
    | none => some { d with target := some word }
  | .level start => do return { d with limit := ← limitOrAll? (text.drop start) }
  | .afterSpan => some d
  | _ => none

/-- Reads a directive. White space around it is passed over, but the places of its parts are those
of the text without it. -/
def read? (text : List Char) : Option Directive := do
  let (d, stage) ← (Text.trim text).zipIdx.foldlM
    (fun (d, stage) (c, place) => step text d stage place c) ({}, .beginning)
  finish text d stage

def isPlain (d : Directive) : Bool := !d.asksSpan && d.fields.all fun f => !f.contains '='

def fits (d : Directive) (target : List Char) (fields : List String) : Bool :=
  d.isPlain && (d.target.all fun t => t.isPrefixOf target)
    && d.fields.all fun f => fields.contains (String.ofList f)

/-- Directives with longer targets come first, and of these the ones with more fields. -/
def precedes (d e : Directive) : Bool :=
  let reach (d : Directive) : Nat := match d.target with
    | some t => t.length + 1
    | none => 0
  reach e < reach d || (reach e = reach d && e.fields.length ≤ d.fields.length)

end Directive

structure Filter where
  directives : List Directive

namespace Filter

def pieces (text : String) : List (List Char) :=
  (Text.Path.splitAt (· == ',') text.toList).filter fun p => !p.isEmpty

def ofDirectives (ds : List Directive) : Filter :=
  ⟨if ds.isEmpty then [{ limit := Level.error.rank }] else ds⟩

/-- The filter that a text describes, if each of its directives is one. -/
def read? (text : String) : Option Filter := do
  return ofDirectives (← (pieces text).mapM Directive.read?)

/-- The filter that a text describes; what is no directive is passed over. -/
def readLeniently (text : String) : Filter :=
  ofDirectives ((pieces text).filterMap Directive.read?)

/-- Whether a line passes. Of directives that fit equally well the last one decides. -/
def passes (f : Filter) (target : String) (notice : Notice) : Bool :=
  let fields := "message" :: notice.fields.map (·.1)
  match (f.directives.reverse.filter fun d => d.fits target.toList fields).mergeSort
      Directive.precedes with
  | d :: _ => notice.level.rank ≤ d.limit
  | [] => false

end Filter

/-- The target of the lines that tell of passes, configurations and health. -/
def target : String := "notifyr_runtime::logging"

def usualStem : String := "notifyr"

structure Setup where
  filter : Filter
  json : Bool
  /-- The name of the file without its date. -/
  stem : Option String

namespace Setup

/-- Sets the log up. The environment may hold a filter; otherwise the level of the configuration
is the filter. -/
def make (isSetUp : Bool) (described : Option String) (c : Config.Logging) :
    Except Fault (Setup × Notice) := do
  let level ← Level.read c.level
  if isSetUp then
    throw (.configuration "Logging already initialized" (some "the log was set up before"))
  let filter := match described.bind Filter.read? with
    | some filter => filter
    | none => .readLeniently c.level
  let stem := c.fileOutput.map fun path => (Text.Path.stem? path).getD usualStem
  return (⟨filter, c.jsonFormat, stem⟩, .loggingReady level)

def lines (s : Setup) (notices : List Notice) : List Notice :=
  notices.filter (s.filter.passes target)

end Setup

end Steward.Logging
