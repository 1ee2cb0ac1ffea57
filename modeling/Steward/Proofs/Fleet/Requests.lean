import Steward.Fleet.Conduct
import Steward.Proofs.Cell.Building
/-!
What is asked of a running fleet. Only a late registration changes who belongs to it; everything
else works on the cells of the components alone.
-/
namespace Steward.Fleet

open Steward.Action

variable {K : Kit}

/-- A request to a running fleet. -/
inductive Request (K : Kit) where
  | register (d : Registry.Descriptor (Factory K))
  | rebuild (name : String) (token : Token)
  | destroy (name : String)
  | apply (change : Change)
  | shutdown

namespace Request

def Answer : Request K → Type
  | .register _ => Except Fault Report
  | .rebuild _ _ | .destroy _ => Except Fault Link.Propagation
  | .apply _ => Except Fault (Option Report)
  | .shutdown => List String

def action : (r : Request K) → Action K r.Answer
  | .register d => Fleet.register d
  | .rebuild name token => Fleet.rebuild name token
  | .destroy name => Fleet.destroy name
  | .apply change => Fleet.apply change
  | .shutdown => Fleet.shutdown

end Request

def steady : Terms K where
  others := World.Keeps fun _ => False
  own := World.Keeps fun _ => False
  may _ _ := True
  mayExit := True
  others_refl := .refl _
  others_trans := .trans
  own_of_others h := h
  own_trans := .trans

theorem hosts_steady : Hosts (steady (K := K)) fun _ => False :=
  ⟨fun h => h, fun h => h.cells, fun _ _ _ => trivial⟩

def Steady {α : Type} (p : Action K α) : Prop := ∀ w, Meets steady p (fun _ _ _ => True) w

namespace Steady

variable {α β : Type} {p : Action K α} {f : α → Action K β}

theorem bind (hp : Steady p) (hf : ∀ a, Steady (f a)) : Steady (p >>= f) :=
  fun w => Meets.seq (hp w) fun _ a v _ _ => hf a v

theorem pure (a : α) : Steady (Pure.pure a : Action K α) := fun _ => Meets.pure fun _ _ => trivial

theorem get (f : World K → α) : Steady (Action.get f) :=
  fun _ => Meets.of_bind_pure (Meets.get fun v _ => pure (f v) v)

theorem report (notice : Notice) : Steady (Action.report (K := K) notice) :=
  fun _ => (Cell.quiet_report hosts_steady.lends notice).mono fun _ _ _ _ => trivial

theorem reading (id : CellId) (f : Option (Cell K) → α) : Steady (Action.reading id f) :=
  fun _ => (Cell.quiet_reading f).mono fun _ _ _ _ => trivial

theorem build (id : CellId) (token : Token) : Steady (Cell.build (K := K) id token) :=
  fun _ => (Cell.meets_build hosts_steady token fun _ _ => trivial).mono fun _ _ _ _ => trivial

theorem destroy (id : CellId) : Steady (Cell.destroy (K := K) id) :=
  fun _ => (Cell.meets_destroy hosts_steady False.elim fun _ _ => trivial).mono
    fun _ _ _ _ => trivial

theorem setStatus (id : CellId) (status : Status) : Steady (Cell.setStatus (K := K) id status) :=
  fun _ => (Cell.quiet_setStatus hosts_steady status).mono fun _ _ _ _ => trivial

theorem onAbort (fault : Fault) : Steady (Fleet.onAbort (K := K) fault) := by
  cases fault with
  | buildAborted name message =>
    refine (get _).bind fun policy => ?_
    cases policy with
    | propagate => exact report _
    | exit => exact (report _).bind fun _ _ => trivial
  | _ => exact pure ()

theorem checkAbort {r : Except Fault α} : Steady (Fleet.checkAbort (K := K) r) := by
  cases r with
  | ok a => exact pure _
  | error fault => exact (onAbort fault).bind fun _ => pure _

theorem visit (op : Link.Operation) (v : Link.Visit CellId) : Steady (v.run (K := K) op) := by
  refine (report _).bind fun _ => ?_
  cases op with
  | build => exact (build _ _).bind fun _ => pure _
  | destroy => exact (destroy _).bind fun _ => pure _

theorem runVisits (op : Link.Operation) (visits : List (Link.Visit CellId))
    (before : Link.Propagation) : Steady (Link.runVisits (K := K) op visits before) := by
  induction visits generalizing before with
  | nil => exact pure _
  | cons v visits ih =>
    refine (visit op v).bind fun r => ?_
    cases r with
    | ok reports => exact ih _
    | error fault => exact pure _

theorem spread (t : Link.Topology CellId) (op : Link.Operation) (start : String) (token : Token) :
    Steady (Link.spread (K := K) t op start token) := by
  refine (runVisits op _ {}).bind fun r => ?_
  split <;> exact pure _

theorem spreadFrom (op : Link.Operation) (name : String) (token : Token) :
    Steady (Fleet.spreadFrom (K := K) op name token) := by
  refine (get _).bind fun roster => ?_
  dsimp only
  split
  · exact pure _
  · exact spread _ op _ token

theorem target (change : Change) : Steady (Fleet.target (K := K) change) := by
  refine (get _).bind fun found => ?_
  split
  · exact pure _
  · exact pure _
  · refine (get _).bind fun ⟨name, isManager⟩ => ?_
    dsimp only
    split
    · exact pure _
    · refine (reading _ _).bind fun mini => ?_
      split <;> exact pure _

theorem apply (change : Change) : Steady (Fleet.apply (K := K) change) := by
  refine (target change).bind fun r => ?_
  cases r with
  | error fault => exact pure _
  | ok cell =>
    refine (report _).bind fun _ => (setStatus _ _).bind fun _ => ?_
    have hrest : Steady (K := K) (if change.toBuild then do
        return (← Fleet.checkAbort (← Cell.build cell change.token)).map some
      else return .ok none) := by
      split
      · exact (build _ _).bind fun r => checkAbort.bind fun _ => pure _
      · exact pure _
    dsimp only
    split
    · exact (destroy _).bind fun _ => hrest
    · exact hrest

theorem destroyMembers (names : List String) : Steady (Fleet.destroyMembers (K := K) names) := by
  induction names with
  | nil => exact pure ()
  | cons name names ih =>
    refine (get _).bind fun m => ?_
    cases m with
    | none => exact ih
    | some m => exact (destroy _).bind fun _ => ih

theorem shutdown : Steady (Fleet.shutdown (K := K)) :=
  (get _).bind fun _ => (destroyMembers _).bind fun _ => (report _).bind fun _ => pure _

theorem request (r : Request K) (h : ∀ d, r ≠ .register d) : Steady r.action := by
  cases r with
  | register d => exact absurd rfl (h d)
  | rebuild name token => exact (spreadFrom _ _ _).bind fun _ => checkAbort
  | destroy name => exact spreadFrom _ _ _
  | apply change => exact apply change
  | shutdown => exact shutdown

end Steady

theorem meets_checkAbort {α : Type} {w : World K} (r : Except Fault α) :
    Meets steady (checkAbort (K := K) r) (fun _ s _ => s = r) w := by
  cases r with
  | ok a => exact Meets.pure fun _ _ => rfl
  | error fault =>
    exact Meets.seq (Steady.onAbort fault w) fun _ _ _ _ _ => Meets.pure fun _ _ => rfl

end Steward.Fleet
