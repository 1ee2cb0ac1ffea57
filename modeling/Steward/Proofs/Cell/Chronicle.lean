import Steward.Proofs.Cell.Keeping
import Steward.Proofs.Crowd.Airing
import Steward.Proofs.Sequence
import Steward.Rotation.Tick
/-!
The events of a cell, and the status that they tell. Whatever changes the status of a cell sends
events of that cell which lead from the one status to the other, and sends nothing of other cells.
All other changes send nothing and leave the status as it is.
-/
namespace Steward

open World

variable {K : Kit}

/-- Events lead from one status to another, and each that names the one before it names it
rightly. -/
def Follows : Status → List Event → Status → Prop
  | s, [], s' => s' = s
  | s, e :: es, s' => (∀ p, e.previous? = some p → p = s) ∧ Follows (e.replay s) es s'

section Follows

variable {s s₁ s' : Status} {es es' : List Event}

theorem Follows.append (h : Follows s es s₁) (h' : Follows s₁ es' s') :
    Follows s (es ++ es') s' := by
  induction es generalizing s with
  | nil => exact (show s₁ = s from h) ▸ h'
  | cons e es ih => exact ⟨h.1, ih h.2⟩

theorem Follows.eq_foldl (h : Follows s es s') : s' = es.foldl Event.replay s := by
  induction es generalizing s with
  | nil => exact h
  | cons e es ih => exact ih h.2

theorem Follows.previous (h : Follows s es s') :
    Prefixwise (fun before e => ∀ p, e.previous? = some p → p = before.foldl Event.replay s)
      es := by
  induction es generalizing s with
  | nil => exact .nil
  | cons e es ih =>
    intro before a after hsplit
    cases before with
    | nil =>
      obtain ⟨rfl, -⟩ := List.cons.inj hsplit
      exact h.1
    | cons e' before =>
      obtain ⟨rfl, hrest⟩ := List.cons.inj hsplit
      exact ih h.2 before a after hrest

end Follows

/-- Events of a cell lead from one status to another. -/
structure Tells (name : String) (s : Status) (es : List Event) (s' : Status) : Prop where
  named : ∀ e ∈ es, e.component = name
  follows : Follows s es s'

section Tells

variable {name : String} {s s₁ s' : Status} {es es' : List Event}

theorem Tells.nil (name : String) (s : Status) : Tells name s [] s := ⟨List.forall_mem_nil _, rfl⟩

theorem Tells.one {e : Event} (hname : e.component = name)
    (hprevious : ∀ p, e.previous? = some p → p = s) : Tells name s [e] (e.replay s) :=
  ⟨List.forall_mem_singleton.2 hname, hprevious, rfl⟩

theorem Tells.append (h : Tells name s es s₁) (h' : Tells name s₁ es' s') :
    Tells name s (es ++ es') s' :=
  ⟨List.forall_mem_append.2 ⟨h.named, h'.named⟩, h.follows.append h'.follows⟩

theorem tells_built (name : String) (token : Token) (outcome : Outcome) (s s' : Status) :
    Tells name s [.built name token outcome s s'] s' :=
  .one rfl fun _ h => (Option.some.inj h).symm

theorem tells_statusChanged (name : String) (s s' : Status) :
    Tells name s [.statusChanged name s s'] s' :=
  .one rfl fun _ h => (Option.some.inj h).symm

theorem tells_destroyed (name : String) (s : Status) :
    Tells name s [.destroyed name] .unavailable := .one rfl nofun

theorem tells_credentialRotated (name : String) (attempts : UInt32) (s : Status) :
    Tells name s [.credentialRotated name attempts] s := .one rfl nofun

theorem tells_rotationExhausted (name : String) (attempts : UInt32) (s : Status) :
    Tells name s [.rotationExhausted name attempts] s := .one rfl nofun

end Tells

structure Sign where
  name : String
  attached : Bool
  status : Status

def Cell.sign (c : Cell K) : Sign := ⟨c.name, c.attached, c.standing.status⟩

def Cell.sends (c : Cell K) (es : List Event) : List Event := if c.attached then es else []

namespace World

variable {v : World K} {id cell : CellId}

def sign? (w : World K) (id : CellId) : Option Sign := (w.cell? id).map Cell.sign

theorem sign?_of_cell? {c : Cell K} (h : v.cell? id = some c) : v.sign? id = some c.sign := by
  rw [sign?, h, Option.map_some]

theorem exists_cell_of_sign? {sign : Sign} (h : v.sign? id = some sign) :
    ∃ c, v.cell? id = some c ∧ c.sign = sign := Option.map_eq_some_iff.1 h

theorem sign?_modifyCell (v : World K) (cell id : CellId) (f : Cell K → Cell K) :
    (v.modifyCell cell f).sign? id =
      if cell = id then (v.cell? id).map fun c => (f c).sign else v.sign? id := by
  rw [sign?, cell?_modifyCell]
  split
  · rw [Option.map_map]
    rfl
  · rfl

theorem sign?_modifyCell_of_sign {f : Cell K → Cell K} (hf : ∀ c, (f c).sign = c.sign) :
    (v.modifyCell cell f).sign? id = v.sign? id := by
  rw [sign?_modifyCell]
  simp only [hf, ite_eq_right_iff]
  exact fun _ => rfl

@[simp] theorem sign?_report (v : World K) (notice : Notice) :
    (v.report notice).sign? id = v.sign? id := rfl

@[simp] theorem sign?_publish (v : World K) (e : Event) :
    (v.publish cell e).sign? id = v.sign? id := by
  unfold publish
  split
  · split
    · split <;> rfl
    · rfl
  · rfl

@[simp] theorem cell?_publish (v : World K) (e : Event) :
    (v.publish cell e).cell? id = v.cell? id := by
  unfold publish
  split
  · split
    · split <;> rfl
    · rfl
  · rfl

theorem bus_publish {c d : Cell K} {e : Event} (hd : v.cell? cell = some d)
    (hsame : d.attached = c.attached) (hb : v.bus.isHeard = true) :
    (v.publish cell e).bus = (c.sends [e]).foldl Bus.send v.bus := by
  simp only [publish, hd, hsame, hb, Cell.sends, if_true]
  split <;> rfl

theorem isHeard_publish (e : Event) : (v.publish cell e).bus.isHeard = v.bus.isHeard := by
  unfold publish
  split
  · split
    · split
      · exact Bus.isHeard_send _ _
      · rfl
    · rfl
  · rfl

theorem bus_publish_publish {c d : Cell K} {e e' : Event} (hd : v.cell? cell = some d)
    (hsame : d.attached = c.attached) (hb : v.bus.isHeard = true) :
    ((v.publish cell e).publish cell e').bus = (c.sends [e, e']).foldl Bus.send v.bus := by
  rw [bus_publish ((cell?_publish _ _).trans hd) hsame ((isHeard_publish e).trans hb),
    bus_publish hd hsame hb]
  unfold Cell.sends
  split <;> rfl

theorem cell?_modifyCell_self {c : Cell K} (g : Cell K → Cell K) (hc : v.cell? cell = some c) :
    (v.modifyCell cell g).cell? cell = some (g c) := by
  rw [cell?_modifyCell, if_pos rfl, hc, Option.map_some]

theorem sign?_restand {c : Cell K} (g : Standing → Standing) (hc : v.cell? cell = some c)
    (id : CellId) :
    (v.modifyCell cell fun c => { c with standing := g c.standing }).sign? id =
      if cell = id then some ⟨c.name, c.attached, (g c.standing).status⟩ else v.sign? id := by
  rw [sign?_modifyCell]
  split
  · subst cell
    rw [hc]
    rfl
  · rfl

end World

structure IsSilent (f : World K → World K) : Prop where
  bus : ∀ v, (f v).bus = v.bus
  sign : ∀ v id sign, v.sign? id = some sign → (f v).sign? id = some sign

theorem IsSilent.sends {f : World K → World K} (h : IsSilent f) (id : CellId) (v : World K) :
    Sends id f v [] := fun _ _ => h.bus _

section Silent

variable {cell : CellId}

theorem isSilent_id : IsSilent (id : World K → World K) := ⟨fun _ => rfl, fun _ _ _ h => h⟩

theorem isSilent_note (line : String) : IsSilent (·.note (K := K) line) :=
  ⟨fun _ => rfl, fun _ _ _ h => h⟩

theorem isSilent_report (notice : Notice) : IsSilent (·.report (K := K) notice) :=
  ⟨fun _ => rfl, fun _ _ _ h => h⟩

theorem isSilent_modifyCell {g : Cell K → Cell K} (hg : ∀ c, (g c).sign = c.sign) :
    IsSilent (·.modifyCell cell g) :=
  ⟨fun _ => rfl, fun _ _ _ h => (sign?_modifyCell_of_sign hg).trans h⟩

theorem isSilent_addCell (c : Cell K) : IsSilent (·.addCell c) where
  bus _ := rfl
  sign v id sign h := by
    obtain ⟨d, hd, rfl⟩ := exists_cell_of_sign? h
    have hlt : id < v.cells.size := (Array.getElem?_eq_some_iff.1 hd).1
    have hcell : (v.addCell c).cell? id = some d := by
      rw [cell?, addCell, Array.getElem?_push_lt hlt, ← Array.getElem?_eq_getElem hlt]
      exact hd
    exact sign?_of_cell? hcell

theorem isSilent_cancelTimer : IsSilent (·.cancelTimer (K := K) cell) where
  bus v := by
    unfold cancelTimer
    split <;> rfl
  sign v id sign h := by
    have hcancel : (v.cancelTimer cell).sign? id = v.sign? id := by
      unfold cancelTimer
      split
      · exact sign?_modifyCell_of_sign fun _ => rfl
      · rfl
    exact hcancel.trans h

theorem isSilent_armTimer : IsSilent (·.armTimer (K := K) cell) where
  bus v := isSilent_cancelTimer.bus v
  sign v id sign h := by
    have harm : ((v.cancelTimer cell).modifyCell cell fun c =>
        { c with timer := some (v.cancelTimer cell).nextTask }).sign? id =
          (v.cancelTimer cell).sign? id := sign?_modifyCell_of_sign fun _ => rfl
    exact harm.trans (isSilent_cancelTimer.sign v id sign h)

theorem isSilent_armAfter (report : Report) : IsSilent (Cell.armAfter (K := K) cell report) where
  bus v := by
    unfold Cell.armAfter
    split
    · split
      · exact isSilent_armTimer.bus v
      · rfl
    · rfl
  sign v id sign h := by
    unfold Cell.armAfter
    split
    · split
      · exact isSilent_armTimer.sign v id sign h
      · exact h
    · exact h

end Silent

structure Announces (cell : CellId) (f : World K → World K) (es : Cell K → List Event)
    (status : Cell K → Status) : Prop where
  none : ∀ v, v.cell? cell = none → f v = v
  bus : ∀ v c, v.cell? cell = some c → v.bus.isHeard = true →
    (f v).bus = (c.sends (es c)).foldl Bus.send v.bus
  sign : ∀ v c id, v.cell? cell = some c →
    (f v).sign? id = if cell = id then some ⟨c.name, c.attached, status c⟩ else v.sign? id

namespace Announces

variable {f : World K → World K} {es : Cell K → List Event} {status : Cell K → Status}
  {cell id : CellId} {v : World K}

theorem sends_beside (h : Announces cell f es status) (hne : cell ≠ id) (v : World K) :
    Sends id f v [] := by
  intro b hb
  rcases hc : v.cell? cell with _ | c
  · rw [h.none (v.solo id b) (by rw [cell?_solo, hc, Option.map_none])]
    rfl
  · have hsolo : (v.solo id b).cell? cell = some { c with attached := false } := by
      rw [cell?_solo, hc, Option.map_some, if_neg hne]
    exact h.bus _ _ hsolo hb

theorem sign_beside (h : Announces cell f es status) (hne : cell ≠ id) (v : World K) :
    (f v).sign? id = v.sign? id := by
  rcases hc : v.cell? cell with _ | c
  · rw [h.none v hc]
  · rw [h.sign v c id hc, if_neg hne]

theorem sends_self {c : Cell K} (h : Announces cell f es status) (hc : v.cell? cell = some c)
    (hattached : c.attached = true) : Sends cell f v (es c) := by
  intro b hb
  have hsolo : (v.solo cell b).cell? cell = some c := (cell?_solo_self v cell b).trans hc
  rw [h.bus _ _ hsolo hb, Cell.sends, if_pos hattached]
  rfl

end Announces

namespace Cell

variable {cell : CellId}

theorem announces_endBuild (scope : Scope) (ending : Ending) (report : Report)
    (previous : Status) : Announces (K := K) cell (endBuild cell scope ending report previous)
      (fun c => [.built c.name scope.token report.outcome previous report.status])
      fun _ => report.status where
  none v hc := by simp only [endBuild, hc]
  bus v c hc hb := by
    simp only [endBuild, hc]
    exact bus_publish (cell?_modifyCell_self _ hc) rfl hb
  sign v c id hc := by
    simp only [endBuild, hc, sign?_publish, sign?_report]
    exact sign?_restand (·.endBuild report scope.disabled) hc id

theorem announces_endDestroy (ending : Ending) :
    Announces (K := K) cell (endDestroy cell ending) (fun c => [.destroyed c.name])
      fun _ => .unavailable where
  none v hc := by simp only [endDestroy, hc]
  bus v c hc hb := by
    simp only [endDestroy, hc]
    cases tearNotice? c.name ending <;> exact bus_publish (cell?_modifyCell_self _ hc) rfl hb
  sign v c id hc := by
    simp only [endDestroy, hc, sign?_publish, sign?_report]
    cases tearNotice? c.name ending <;> exact sign?_restand (·.endDestroy) hc id

theorem announces_assign (status : Status) :
    Announces (K := K) cell (assign cell status)
      (fun c => [.statusChanged c.name c.standing.status status]) fun _ => status where
  none v hc := by simp only [assign, hc]
  bus v c hc hb := by
    simp only [assign, hc]
    split <;> exact bus_publish (cell?_modifyCell_self _ hc) rfl hb
  sign v c id hc := by
    simp only [assign, hc, sign?_publish]
    split <;> exact sign?_restand (·.assign status) hc id

end Cell

namespace Rotation

variable {cell : CellId}

theorem announces_adopt (store : Status) :
    Announces (K := K) cell (adopt cell store)
      (fun c => [.statusChanged c.name c.standing.status store]) fun _ => store where
  none v hc := by simp only [adopt, hc]
  bus v c hc hb := by
    simp only [adopt, hc]
    exact bus_publish (cell?_modifyCell_self _ hc) rfl hb
  sign v c id hc := by
    simp only [adopt, hc, sign?_publish, sign?_report]
    exact sign?_restand (·.assign store) hc id

/-- What is sent with a fresh credential: that the status has changed only if it has. -/
def installed (attempts : Nat) (c : Cell K) : List Event :=
  .credentialRotated c.name (UInt32.ofNat attempts) ::
    if c.standing.status = .available then []
    else [.statusChanged c.name c.standing.status .available]

theorem tells_installed (attempts : Nat) (c : Cell K) :
    Tells c.name c.standing.status (installed attempts c) .available := by
  have hrotated := tells_credentialRotated c.name (UInt32.ofNat attempts) c.standing.status
  unfold installed
  split
  · rename_i havailable
    rwa [havailable] at hrotated ⊢
  · exact hrotated.append (tells_statusChanged _ _ _)

theorem announces_install (attempts : Nat) :
    Announces (K := K) cell (install cell attempts) (installed attempts) fun _ => .available where
  none v hc := by simp only [install, hc]
  bus v c hc hb := by
    simp only [install, hc, installed]
    split
    · exact bus_publish (cell?_modifyCell_self _ hc) rfl hb
    · exact bus_publish_publish (cell?_modifyCell_self _ hc) rfl hb
  sign v c id hc := by
    simp only [install, hc]
    split <;>
    · simp only [sign?_publish, sign?_report]
      exact sign?_restand (·.assign .available) hc id

theorem announces_giveUp (attempts : Nat) (message : String) :
    Announces (K := K) cell (giveUp cell attempts message)
      (fun c => [.rotationExhausted c.name (UInt32.ofNat attempts)]) (·.standing.status) where
  none v hc := by simp only [giveUp, hc]
  bus v c hc hb := by
    simp only [giveUp, hc]
    exact bus_publish hc rfl hb
  sign v c id hc := by
    simp only [giveUp, hc, sign?_publish, sign?_report]
    split
    · subst cell
      exact sign?_of_cell? hc
    · rfl

end Rotation

end Steward
