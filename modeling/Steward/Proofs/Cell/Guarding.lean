import Mathlib.Logic.Relation
import Steward.Proofs.Cell.Sparing
import Steward.Proofs.Waiting.Bounds
/-!
Tasks that leave a cell as it is, and tasks that alone work on it.
-/
namespace Steward

open Steward.Action World

variable {K : Kit}

namespace World

variable {v w : World K} {id : CellId}

end World

namespace Cell

variable {w : World K} {id : CellId} {α : Type}

def guarding (id : CellId) : Terms K where
  others := Guards id
  own := Guards id
  may := fun _ _ => True
  mayExit := False
  others_refl := .refl id
  others_trans := .trans
  own_of_others h := h
  own_trans := .trans

def owning (id : CellId) : Terms K where
  others := Guards id
  own := fun _ _ => True
  may := fun _ _ => True
  mayExit := False
  others_refl := .refl id
  others_trans := .trans
  own_of_others := fun _ => trivial
  own_trans := fun _ _ => trivial

def idling (others : World K → World K → Prop) : Terms K where
  others := Relation.ReflTransGen others
  own := Relation.ReflTransGen others
  may := fun _ _ => True
  mayExit := False
  others_refl _ := .refl
  others_trans := .trans
  own_of_others h := h
  own_trans := .trans

theorem owning_of_guarding {p : Action K α} {post : Calls K → α → World K → Prop}
    (h : Meets (guarding id) p post w) :
    Meets (owning id) p (fun calls a v => Guards id w v ∧ post calls a v) w :=
  h.own.relax (fun _ _ h => h) (fun _ _ _ => trivial) (fun _ _ _ => trivial) fun h => h

theorem guards_carry (call : Hook.Call) :
    Meets (guarding id) (carry call) (fun _ _ _ => True) (w : World K) := by
  cases call with
  | note line =>
    exact Meets.of_bind_pure (Meets.modify fun v _ =>
      ⟨guards_of_eq (bare?_note v line), Meets.pure fun _ _ => trivial⟩)
  | rest millis => exact fun _ _ => trivial
  | statusOf cell =>
    exact Meets.acquire (Meets.get fun _ _ => Meets.release (Meets.pure fun _ _ => trivial))
  | clock => exact Meets.of_bind_pure (Meets.get fun _ _ => Meets.pure fun _ _ => trivial)

theorem guards_hook {refs : Set CellId} {post : α → Prop} {hook : Hook α}
    (h : hook.Asks refs post) :
    Meets (guarding id) (hook.interpret carry) (fun _ a _ => post a) (w : World K) := by
  induction hook generalizing w with
  | done a => exact fun _ _ => h
  | call call next ih =>
    exact Meets.seq (guards_carry call) fun _ a v _ _ => ih a (h.2 a)

end Cell

end Steward
