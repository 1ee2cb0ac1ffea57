import Mathlib.Data.Finset.Basic
import Steward.Proofs.Cell.Request
/-!
What can be told of a cell in turn. Either nobody is at work on it, and then tasks come and go, see
where it stands and are in calls of it; or one task is at work, and then nothing is told until it is
done.
-/
namespace Steward

inductive Leads {σ ω : Type} (next : σ → ω → σ → Prop) : σ → List ω → σ → Prop
  | nil (s : σ) : Leads next s [] s
  | cons {s t u : σ} {word : ω} {words : List ω} (h : next s word t)
      (rest : Leads next t words u) : Leads next s (word :: words) u

namespace Leads

variable {σ ω : Type} {next : σ → ω → σ → Prop} {s t u : σ} {before after : List ω}

theorem append (h : Leads next s before t) (h' : Leads next t after u) :
    Leads next s (before ++ after) u := by
  induction h with
  | nil => exact h'
  | cons hword _ ih => exact .cons hword (ih h')

theorem split (h : Leads next s (before ++ after) u) :
    ∃ t, Leads next s before t ∧ Leads next t after u := by
  induction before generalizing s with
  | nil => exact ⟨s, .nil s, h⟩
  | cons word words ih =>
    obtain ⟨⟩ | ⟨hword, rest⟩ := h
    obtain ⟨t, hbefore, hafter⟩ := ih rest
    exact ⟨t, .cons hword hbefore, hafter⟩

theorem preserves {P : σ → Prop} (hnext : ∀ {s word t}, next s word t → P s → P t)
    (h : Leads next s before t) (hs : P s) : P t := by
  induction h with
  | nil => exact hs
  | cons hword _ ih => exact ih (hnext hword hs)

end Leads

/-- Nobody sees the phases in which a task is at work. -/
def Standing.IsSettled (s : Standing) : Prop :=
  s.phase ≠ .building ∧ s.phase ≠ .destroying

namespace Cell

/-- Operations on a cell, each done after the one before it, that bring it from where it stands to
where it says. -/
def Brings (name : String) : Standing → List (Operation × Deed) → Standing → Prop :=
  Leads fun s did s' => Does name did.1 s did.2 s'

theorem Does.isSettled {name : String} {op : Operation} {s s' : Standing} {deed : Deed}
    (h : Does name op s deed s') (hs : s.IsSettled) : s'.IsSettled := by
  cases h with
  | build => exact ⟨nofun, nofun⟩
  | destroy => exact ⟨nofun, nofun⟩
  | destroyAgain => exact hs
  | setStatus => exact hs
  | rotate => exact hs
  | idle => exact hs

theorem Brings.isSettled {name : String} {dids : List (Operation × Deed)} {s s' : Standing}
    (h : Brings name s dids s') (hs : s.IsSettled) : s'.IsSettled :=
  h.preserves Does.isSettled hs

inductive Scene where
  /-- Nobody is at work; these tasks are in calls. -/
  | calm (s : Standing) (callers : Finset TaskId)
  /-- One task is at work, on a cell that stood so before. -/
  | work (t : TaskId) (op : Operation) (s : Standing)

namespace Scene

def standing : Scene → Standing
  | .calm s _ => s
  | .work _ _ s => s

inductive Next (name : String) : Scene → TaskId × Mark → Scene → Prop
  | saw (t : TaskId) (s : Standing) (callers : Finset TaskId) :
      Next name (.calm s callers) (t, .saw s) (.calm s callers)
  | entered {t : TaskId} {s : Standing} {callers : Finset TaskId} {method : String}
      (hgate : s.gate name method = .ok ()) (ht : t ∉ callers) :
      Next name (.calm s callers) (t, .entered method s) (.calm s (insert t callers))
  | left {t : TaskId} {s : Standing} {callers : Finset TaskId} (ht : t ∈ callers) :
      Next name (.calm s callers) (t, .left) (.calm s (callers.erase t))
  | begun (t : TaskId) (op : Operation) (s : Standing) :
      Next name (.calm s ∅) (t, .begun op) (.work t op s)
  | done {t : TaskId} {op : Operation} {s s' : Standing} {deed : Deed}
      (hdoes : Does name op s deed s') :
      Next name (.work t op s) (t, .done op deed) (.calm s' ∅)

end Scene

/-- The operations that a log tells to be done. -/
def doings : List (TaskId × Mark) → List (Operation × Deed) :=
  List.filterMap fun
    | (_, .done op deed) => some (op, deed)
    | _ => none

variable {name : String} {a b : Scene} {log : List (TaskId × Mark)} {t : TaskId}

theorem brings_of_leads (h : Leads (Scene.Next name) a log b) :
    Brings name a.standing (doings log) b.standing := by
  induction h with
  | nil => exact .nil _
  | cons hword _ ih =>
    cases hword with
    | done hdoes => exact .cons hdoes ih
    | saw => exact ih
    | entered => exact ih
    | left => exact ih
    | begun => exact ih

theorem done_of_leads {op : Operation} {s : Standing}
    (h : Leads (Scene.Next name) (.work t op s) log b) :
    log = [] ∨ ∃ deed rest, log = (t, .done op deed) :: rest := by
  cases h with
  | nil => exact .inl rfl
  | cons hword rest =>
    cases hword with
    | done hdoes => exact .inr ⟨_, _, rfl⟩

theorem begun_of_leads {op : Operation} {s s₀ : Standing} {callers : Finset TaskId}
    (h : Leads (Scene.Next name) (.calm s₀ callers) log (.work t op s)) :
    ∃ before, log = before ++ [(t, .begun op)] := by
  obtain rfl | ⟨before, word, rfl⟩ := log.eq_nil_or_concat
  · nomatch h
  · obtain ⟨c, -, hlast⟩ := (List.concat_eq_append ▸ h : Leads _ _ (before ++ [word]) _).split
    obtain ⟨⟩ | ⟨hword, ⟨⟩⟩ := hlast
    cases hword with
    | begun => exact ⟨before, List.concat_eq_append⟩

/-- What can be told while a task is in a call of a cell that stands so: nothing of an operation,
and nothing else is seen. -/
def Mark.Keeps (s : Standing) : Mark → Prop
  | .begun _ | .done _ _ => False
  | .saw s' | .entered _ s' => s' = s
  | .left => True

theorem calm_of_leads {s : Standing} {callers : Finset TaskId}
    (h : Leads (Scene.Next name) (.calm s callers) log b) (ht : t ∈ callers)
    (hin : (t, Mark.left) ∉ log) :
    (∃ callers', b = .calm s callers' ∧ t ∈ callers') ∧ ∀ entry ∈ log, entry.2.Keeps s := by
  induction log generalizing callers with
  | nil =>
    cases h
    exact ⟨⟨callers, rfl, ht⟩, List.forall_mem_nil _⟩
  | cons word rest ih =>
    obtain ⟨hword, hstay⟩ := not_or.1 (List.mem_cons.not.1 hin)
    obtain ⟨⟩ | ⟨hnext, h⟩ := h
    cases hnext with
    | saw u =>
      obtain ⟨hb, hrest⟩ := ih h ht hstay
      exact ⟨hb, List.forall_mem_cons.2 ⟨rfl, hrest⟩⟩
    | entered =>
      obtain ⟨hb, hrest⟩ := ih h (Finset.mem_insert_of_mem ht) hstay
      exact ⟨hb, List.forall_mem_cons.2 ⟨rfl, hrest⟩⟩
    | left =>
      have hne : t ≠ _ := fun heq => hword (heq ▸ rfl)
      obtain ⟨hb, hrest⟩ := ih h (Finset.mem_erase.2 ⟨hne, ht⟩) hstay
      exact ⟨hb, List.forall_mem_cons.2 ⟨trivial, hrest⟩⟩
    | begun => exact absurd ht (Finset.notMem_empty t)

end Cell

end Steward
