import Steward.Proofs.Cell.Keeping
/-!
What the hooks of components and mini-services can do. Whatever a hook asks for, no component is
built or destroyed by it, and the component that it belongs to stays a component.
-/
namespace Steward

open Steward.Action

variable {K : Kit}

def Invocation.isOfMini : Invocation → Bool
  | .buildMini _ _ | .destroyMini _ => true
  | _ => false

namespace Action

/-- What a run calls of factories and components, in order. -/
def ofMembers (calls : Calls K) : List Invocation :=
  (calls.map (·.1)).filter fun what => !what.isOfMini

@[simp] theorem ofMembers_nil : ofMembers ([] : Calls K) = [] := rfl

@[simp] theorem ofMembers_append (before after : Calls K) :
    ofMembers (before ++ after) = ofMembers before ++ ofMembers after := by
  simp [ofMembers]

@[simp] theorem ofMembers_cons (what : Invocation) (v : World K) (calls : Calls K) :
    ofMembers ((what, v) :: calls) =
      if what.isOfMini then ofMembers calls else what :: ofMembers calls := by
  cases h : what.isOfMini <;> simp [ofMembers, h]

structure Lends (T : Terms K) : Prop where
  note : ∀ v line, T.own v (v.note line)
  report : ∀ v notice, T.own v (v.report notice)
  mini : ∀ what v, what.isOfMini = true → T.may what v
  putBack : ∀ {v w : World K} {id : CellId} {c : Cell K} {inner : Inner K}, v.cell? id = some c →
    c.isMini = ({ c with inner } : Cell K).isMini → T.own v w →
    T.own w (w.modifyCell id fun c => { c with inner })

structure Hosts (T : Terms K) (spared : CellId → Prop) : Prop where
  own : ∀ {v w}, World.Keeps spared v w → T.own v w
  cells : ∀ {v w}, T.own v w → World.KeepsCells spared v w
  mini : ∀ what v, what.isOfMini = true → T.may what v

theorem Hosts.lends {T : Terms K} {spared : CellId → Prop} (hT : Hosts T spared) : Lends T where
  note v line := hT.own (World.keeps_note v line)
  report v notice := hT.own (World.keeps_report v notice)
  mini := hT.mini
  putBack hc hlike hown := hT.own (Cell.keeps_putBack fun d hd => by
    obtain ⟨e, he, hce⟩ := hT.cells hown _ _ hc
    obtain rfl : e = d := Option.some.inj (he.symm.trans hd)
    exact hce.isMini.trans hlike)

/-- Terms for a task that calls only what it may, among others; neither takes cells away. -/
def keeping (may : Invocation → World K → Prop) : Terms K where
  others := World.KeepsCells fun _ => False
  own := World.KeepsCells fun _ => False
  may := may
  mayExit := False
  others_refl := .refl _
  others_trans := .trans
  own_of_others h := h
  own_trans := .trans

theorem hosts_keeping {may : Invocation → World K → Prop}
    (h : ∀ what v, what.isOfMini = true → may what v) : Hosts (keeping may) fun _ => False :=
  ⟨fun h => h.cells, fun h => h, h⟩

/-- A program that keeps to the terms and calls no factory and no component. -/
def Quiet (T : Terms K) {α : Type} (p : Action K α) (w : World K) : Prop :=
  Meets T p (fun calls _ _ => ofMembers calls = []) w

section Quiet

variable {T : Terms K} {α β : Type} {p : Action K α} {f : α → Action K β} {w : World K}

theorem Quiet.bind (h : Quiet T p w) (hf : ∀ a v, T.own w v → Quiet T (f a) v) :
    Quiet T (p >>= f) w :=
  Meets.seq h fun before a v hv hbefore =>
    (hf a v hv).mono fun after _ _ hafter => by rw [ofMembers_append, hbefore, hafter]; rfl

theorem Quiet.pure (a : α) : Quiet T (Pure.pure a) w := Meets.pure fun _ _ => rfl

theorem Quiet.modify {f : World K → World K} (h : ∀ v, T.others w v → T.own v (f v)) :
    Quiet T (Action.modify f) w :=
  Meets.of_bind_pure (Meets.modify fun v hv => ⟨h v hv, Quiet.pure ()⟩)

theorem Quiet.ite {c : Prop} [Decidable c] {q : Action K α} (hp : c → Quiet T p w)
    (hq : ¬ c → Quiet T q w) : Quiet T (if c then p else q) w := Meets.ite hp hq

theorem Quiet.interpret {ι : Type} {Answer : ι → Type} {carry : (i : ι) → Action K (Answer i)}
    (hook : Program Answer α) (h : ∀ i v, T.own w v → Quiet T (carry i) v) :
    Quiet T (hook.interpret carry) w := by
  induction hook generalizing w with
  | done a => exact Quiet.pure a
  | call i next ih =>
    exact Quiet.bind (h i w (T.own_of_others (T.others_refl w)))
      fun a v hv => ih a fun j u hu => h j u (T.own_trans hv hu)

end Quiet

end Action

namespace Cell

open World

variable {T : Terms K} {w : World K} {id : CellId}

theorem quiet_note (hT : Lends T) (line : String) : Quiet T (Action.note line) w :=
  .modify fun v _ => hT.note v line

theorem quiet_report (hT : Lends T) (notice : Notice) : Quiet T (Action.report notice) w :=
  .modify fun v _ => hT.report v notice

theorem quiet_get {α : Type} (f : World K → α) : Quiet T (Action.get f) w :=
  Meets.of_bind_pure (Meets.get fun _ _ => Quiet.pure _)

theorem quiet_reading {α : Type} (f : Option (Cell K) → α) : Quiet T (reading id f) w :=
  Meets.acquire (Meets.get fun _ _ => Meets.release (Quiet.pure _))

theorem quiet_carry (hT : Lends T) (call : Hook.Call) : Quiet T (carry call) w := by
  cases call with
  | note line => exact quiet_note hT line
  | rest millis => exact Quiet.pure ()
  | statusOf cell =>
    show Quiet T (status cell) w
    exact quiet_reading _
  | clock => exact quiet_get _

theorem quiet_putBack {v : World K} {inner : Inner K} {c : Cell K} (hT : Lends T)
    (hc : v.cell? id = some c) (hlike : c.isMini = ({ c with inner } : Cell K).isMini)
    (hown : T.own v w) : Quiet T (putBack id inner) w :=
  .modify fun _ hu => hT.putBack hc hlike (T.own_trans hown (T.own_of_others hu))

theorem isMini_of_inner {v : World K} {inner : Inner K}
    (h : (v.cell? id).map (·.inner) = some inner) :
    ∃ c, v.cell? id = some c ∧ c.isMini = ({ c with inner } : Cell K).isMini := by
  obtain ⟨c, hc, rfl⟩ := Option.map_eq_some_iff.1 h
  exact ⟨c, hc, rfl⟩

theorem quiet_onMini {α : Type} {what : Invocation} {p : K.Mini → Action K α} {q : Action K α}
    (hT : Lends T) (hwhat : what.isOfMini = true)
    (hp : ∀ m v, (v.cell? id).map (·.inner) = some (.mini m) → ∀ u, T.own v u → Quiet T (p m) u)
    (hq : ∀ v, Quiet T q v) :
    Quiet T (do
      match ← inner? id with
      | some (.mini m) =>
        invoke what fun _ => ()
        p m
      | _ => q) w := by
  refine Meets.get fun v _ => ?_
  split
  · rename_i m hinner
    refine Meets.invoke fun u hu => ⟨hT.mini _ _ hwhat, ?_⟩
    exact (hp m v hinner u (T.own_of_others hu)).mono fun calls _ _ hcalls => by
      simp [hwhat, hcalls]
  · exact hq v

theorem quiet_passMini (hT : Lends T) (scope : Scope) : Quiet T (passMini id scope) w := by
  refine quiet_onMini hT rfl (fun m v hinner u hu => ?_) fun _ => .pure _
  obtain ⟨c, hc, hlike⟩ := isMini_of_inner hinner
  refine .bind (.interpret _ fun call x _ => quiet_carry hT call)
    fun ⟨m', scope', ending⟩ x hx => ?_
  exact .bind (quiet_putBack hT hc hlike (T.own_trans hu hx)) fun _ _ _ => .pure _

theorem quiet_tearMini (hT : Lends T) : Quiet T (tearMini id) w := by
  refine quiet_onMini hT rfl (fun m v hinner u hu => ?_) fun _ => .pure _
  obtain ⟨c, hc, hlike⟩ := isMini_of_inner hinner
  refine .bind (.interpret _ fun call x _ => quiet_carry hT call) fun ⟨m', ending⟩ x hx => ?_
  exact .bind (quiet_putBack hT hc hlike (T.own_trans hu hx)) fun _ _ _ => .pure _

end Cell

end Steward
