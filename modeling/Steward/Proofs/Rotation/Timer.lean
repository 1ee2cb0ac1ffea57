import Steward.Proofs.Cell.Hooks
import Steward.Rotation.Tick
/-!
What the timer of a rotating component does to the rest. A round builds and destroys nothing and
changes neither the fleet nor what cells are, so timers may go on beside every other task.
-/
namespace Steward.Rotation

open Steward.Action World

variable {K : Kit} {T : Terms K} {spared : CellId → Prop} {w : World K} {id : CellId}

theorem keeps_assigned (status : Status) :
    Keeps spared w (w.modifyCell id fun c => { c with standing := c.standing.assign status }) :=
  keeps_modifyCell fun _ _ => ⟨rfl, rfl, fun _ _ h => h⟩

theorem keeps_adopt (store : Status) : Keeps spared w (adopt id store w) := by
  unfold adopt
  split
  · exact .refl spared w
  · exact ((keeps_assigned store).trans (keeps_report _ _)).trans (keeps_publish _ id _)

theorem keeps_settle (finish : Finish) (name : String) :
    Keeps spared w (finish.settle id name w) := by
  cases finish with
  | granted credential attempts =>
    show Keeps spared w (install id attempts w)
    unfold install
    split
    · exact .refl spared w
    · have h : ∀ notice e, Keeps spared w (((w.modifyCell id fun c =>
          { c with standing := c.standing.assign .available }).report notice).publish id e) :=
        fun _ _ => ((keeps_assigned _).trans (keeps_report _ _)).trans (keeps_publish _ id _)
      dsimp only
      split
      · exact h _ _
      · exact (h _ _).trans (keeps_publish _ id _)
  | exhausted attempts message =>
    show Keeps spared w (giveUp id attempts message w)
    unfold giveUp
    split
    · exact .refl spared w
    · exact (keeps_report _ _).trans (keeps_publish _ id _)
  | failed attempts message => exact keeps_report w _
  | overflowed => exact .refl spared w
  | panicked => exact .refl spared w

theorem quiet_attempt (hT : Lends T) (name : String) (policy : Policy)
    (retries attempts : Nat) (s : K.Service) :
    Quiet T (attempt name policy retries attempts s) w := by
  induction retries generalizing attempts s w with
  | zero =>
    unfold attempt
    refine .ite (fun _ => .pure _) fun _ => ?_
    refine .bind (.interpret _ fun call v _ => Cell.quiet_carry hT call) fun ⟨s, answer⟩ v _ => ?_
    cases answer <;> exact .pure _
  | succ retries ih =>
    unfold attempt
    refine .ite (fun _ => .pure _) fun _ => ?_
    refine .bind (.interpret _ fun call v _ => Cell.quiet_carry hT call) fun ⟨s, answer⟩ v _ => ?_
    cases answer with
    | granted credential => exact .pure _
    | failed message => exact .pure _
    | panicked => exact .pure _
    | transient message =>
      dsimp only
      split
      · exact .pure _
      · exact .bind (Cell.quiet_report hT _) fun _ u _ => ih _ _

theorem of_undestroyed? {name : String} {s : K.Service}
    (h : undestroyed? w id = some (name, s)) :
    ∃ c, w.cell? id = some c ∧ c.inner = .service s ∧ c.standing.destroyed = false := by
  obtain ⟨c, hc, h⟩ := Option.bind_eq_some_iff.1 h
  split at h
  · rename_i s' hs
    split at h
    · cases h
    · rename_i hstanding
      cases h
      exact ⟨c, hc, hs, Bool.eq_false_iff.2 hstanding⟩
  · cases h

structure Winds (T : Terms K) (id : CellId) : Prop where
  lends : Lends T
  adopt : ∀ store v, T.own v (adopt id store v)
  settle : ∀ (finish : Finish) (name : String) v, T.own v (finish.settle id name v)

theorem winds_of_hosts (hT : Hosts T spared) : Winds T id :=
  ⟨hT.lends, fun store _ => hT.own (keeps_adopt store),
    fun finish name _ => hT.own (keeps_settle finish name)⟩

theorem quiet_tickHeld {v : World K} {name : String} {s : K.Service} (hT : Winds T id)
    (hs : (v.cell? id).map (·.inner) = some (.service s)) (hv : T.own v w) :
    Quiet T (tickHeld id name s) w := by
  obtain ⟨c, hc, hlike⟩ := Cell.isMini_of_inner hs
  have hput : ∀ {s' : K.Service} {u : World K}, T.own w u →
      Quiet T (Cell.putBack id (.service s')) u := fun hu =>
    Cell.quiet_putBack hT.lends hc hlike (T.own_trans hv hu)
  refine .bind (.interpret _ fun call u _ => Cell.quiet_carry hT.lends call)
    fun ⟨s', store?⟩ u hu => ?_
  cases store? with
  | none => exact .bind (hput hu) fun _ _ _ => .pure _
  | some store =>
    refine .ite (fun _ => ?_) fun _ => ?_
    · exact .bind (hput hu) fun _ x _ =>
        .bind (.modify fun y _ => hT.adopt store y) fun _ _ _ => .pure _
    · refine .bind (quiet_attempt hT.lends name _ _ _ _) fun ⟨s'', finish⟩ x hx => ?_
      exact .bind (hput (T.own_trans hu hx)) fun _ y _ =>
        .bind (.modify fun z _ => hT.settle finish name z) fun _ _ _ => .pure _

theorem quiet_tick (hT : Winds T id) : Quiet T (tick id) w := by
  refine Meets.acquire (Meets.get fun v _ => ?_)
  split
  · rename_i name s hfound
    obtain ⟨c, hc, hs, -⟩ := of_undestroyed? hfound
    have hheld : Quiet T (tickHeld id name s) v :=
      quiet_tickHeld hT (by rw [hc, Option.map_some, hs]) (T.own_of_others (T.others_refl v))
    exact Quiet.bind hheld fun _ _ _ => Meets.release (Quiet.pure _)
  · exact Meets.release (Quiet.pure _)

theorem quiet_round (hT : Winds T id) : Quiet T (round id) w := by
  refine Meets.acquire (Meets.get fun v _ => Meets.release ?_)
  split
  · exact Quiet.pure _
  · refine Quiet.bind (Cell.quiet_report hT.lends _) fun _ u _ => ?_
    refine Meets.restUnlessCancelled fun isCancelled => Quiet.ite (fun _ => ?_) fun _ => ?_
    · exact Quiet.bind (Cell.quiet_report hT.lends _) fun _ _ _ => .pure _
    · refine Quiet.bind (quiet_tick hT) fun result x _ => ?_
      cases result with
      | cancelled => exact Quiet.bind (Cell.quiet_report hT.lends _) fun _ _ _ => .pure _
      | _ => exact Quiet.pure _

end Steward.Rotation
