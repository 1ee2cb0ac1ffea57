import Steward.Cell.Scope
/-!
Scripts for rehearsals. A script is a word, or a word and a message with a colon between them; it
says how a hook of a rehearsed component ends.
-/
namespace Steward.Rehearsal

structure Script where
  kind : String
  message : Option String := none
  deriving DecidableEq, Repr

namespace Script

def ofText (s : String) : Script :=
  let (kind, rest) := s.toList.span (· != ':')
  match rest with
  | [] => ⟨s, none⟩
  | _ :: message => ⟨String.ofList kind, some (String.ofList message)⟩

/-- How a hook of the component `label` ends. Without a message of its own a script is told as
the label and the kind; a kind that means nothing is a success. -/
def ending (s : Script) (label : String) : Ending :=
  let message := s.message.getD s!"{label}: {s.kind}"
  match s.kind with
  | "warning" => .failed (.warning message)
  | "skip" => .failed (.skip message)
  | "failure" => .failed (.failure message)
  | "abort" => .failed (.abort message)
  | "not_implemented" => .failed .notImplemented
  | "unexpected" => .failed (.ofDevice message)
  | "internal" => .failed (.ofFault (.internal message))
  | "panic" => .panicked (some message)
  | "panic_str" => .panicked (some "static panic")
  | "panic_other" => .panicked none
  | _ => .ok

def endingOf (label : String) : Option Script → Ending
  | some s => s.ending label
  | none => .ok

def next (queue : List Script) (fallback : Option Script) : Option Script × List Script :=
  match queue with
  | s :: rest => (some s, rest)
  | [] => (fallback, [])

end Script

end Steward.Rehearsal
