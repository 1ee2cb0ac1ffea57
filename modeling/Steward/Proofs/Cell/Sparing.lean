import Steward.Proofs.Cell.Bare
import Steward.Proofs.Cell.Building
import Steward.Proofs.Rotation.Timer
/-!
Where one cell stands while tasks work on the world. What is told, timers and all that is done to
other cells leave it there. So do the hooks of its own component: they may build and destroy
mini-services, but of their own cell they give back what it holds and nothing else.
-/
namespace Steward

open Steward.Action World

variable {K : Kit}

structure Face where
  name : String
  isMini : Bool
  standing : Standing

namespace Face

def restand (f : Standing → Standing) (face : Face) : Face :=
  { face with standing := f face.standing }

end Face

def Cell.face (c : Cell K) : Face := ⟨c.name, c.isMini, c.standing⟩

namespace World

variable {u v w : World K} {id cell : CellId}

def face? (w : World K) (id : CellId) : Option Face := (w.cell? id).map Cell.face

theorem face?_eq_map_bare? (w : World K) (id : CellId) :
    w.face? id = (w.bare? id).map Cell.face := by
  rw [face?, bare?, Option.map_map]
  rfl

/-- A cell that is there shows the same face before and after. -/
def Spares (id : CellId) (v w : World K) : Prop :=
  ∀ face, v.face? id = some face → w.face? id = some face

theorem Spares.refl (id : CellId) (w : World K) : Spares id w w := fun _ h => h

theorem Spares.trans (huv : Spares id u v) (hvw : Spares id v w) : Spares id u w :=
  fun face h => hvw face (huv face h)

theorem spares_of_eq (h : w.face? id = v.face? id) : Spares id v w :=
  fun _ hface => h.trans hface

theorem Guards.spares (h : Guards id v w) : Spares id v w := by
  intro face hface
  rw [face?_eq_map_bare?] at hface ⊢
  obtain ⟨c, hc, rfl⟩ := Option.map_eq_some_iff.1 hface
  rw [h c hc, Option.map_some]

theorem face?_of_cell? {c : Cell K} (h : w.cell? id = some c) : w.face? id = some c.face := by
  rw [face?, h, Option.map_some]

theorem exists_cell_of_face? {face : Face} (h : w.face? id = some face) :
    ∃ c, w.cell? id = some c ∧ c.face = face := Option.map_eq_some_iff.1 h

theorem Spares.houses {name : String} (h : Spares id v w) (hid : v.Houses id name) :
    w.Houses id name := by
  obtain ⟨c, hc, hname, hmini⟩ := hid
  obtain ⟨d, hd, hface⟩ := exists_cell_of_face? (h _ (face?_of_cell? hc))
  simp only [Cell.face, Face.mk.injEq] at hface
  exact ⟨d, hd, hface.1.trans hname, hface.2.1.trans hmini⟩

theorem face?_modifyCell (w : World K) (id cell : CellId) (f : Cell K → Cell K) :
    (w.modifyCell cell f).face? id =
      if cell = id then (w.cell? id).map fun c => (f c).face else w.face? id := by
  rw [face?, cell?_modifyCell]
  split
  · rw [Option.map_map]
    rfl
  · rfl

theorem face?_of_bare?_eq (h : w.bare? id = v.bare? id) : w.face? id = v.face? id := by
  rw [face?_eq_map_bare?, h, face?_eq_map_bare?]

theorem face?_of_restand {f : Standing → Standing}
    (h : w.bare? id = if cell = id then (v.bare? id).map (Cell.restand f) else v.bare? id) :
    w.face? id = if cell = id then (v.face? id).map (Face.restand f) else v.face? id := by
  simp only [face?_eq_map_bare?, h]
  split
  · rw [Option.map_map, Option.map_map]
    rfl
  · rfl

@[simp] theorem face?_note (w : World K) (line : String) : (w.note line).face? id = w.face? id :=
  rfl

@[simp] theorem face?_report (w : World K) (notice : Notice) :
    (w.report notice).face? id = w.face? id := rfl

@[simp] theorem face?_publish (w : World K) (e : Event) :
    (w.publish cell e).face? id = w.face? id := face?_of_bare?_eq (bare?_publish w e)

@[simp] theorem face?_cancelTimer (w : World K) : (w.cancelTimer cell).face? id = w.face? id :=
  face?_of_bare?_eq (bare?_cancelTimer w)

@[simp] theorem face?_armTimer (w : World K) : (w.armTimer cell).face? id = w.face? id :=
  face?_of_bare?_eq (bare?_armTimer w)

theorem spares_addCell (w : World K) (c : Cell K) : Spares id w (w.addCell c) :=
  (guards_addCell w c).spares

end World

namespace Cell

variable {w : World K} {id cell : CellId}

theorem face?_beginBuild (w : World K) :
    (w.modifyCell cell fun c => { c with standing := c.standing.beginBuild }).face? id =
      if cell = id then (w.face? id).map (Face.restand Standing.beginBuild) else w.face? id :=
  face?_of_restand (bare?_restand cell id _ w)

theorem face?_endBuild (scope : Scope) (ending : Ending) (report : Report) (previous : Status)
    (w : World K) : (endBuild cell scope ending report previous w).face? id =
      if cell = id then (w.face? id).map (Face.restand (·.endBuild report scope.disabled))
      else w.face? id :=
  face?_of_restand (bare?_endBuild scope ending report previous w)

@[simp] theorem face?_armAfter (report : Report) (w : World K) :
    (armAfter cell report w).face? id = w.face? id :=
  face?_of_bare?_eq (bare?_armAfter report w)

theorem face?_beginDestroy (w : World K) :
    (w.modifyCell cell fun c => { c with standing := c.standing.beginDestroy }).face? id =
      if cell = id then (w.face? id).map (Face.restand Standing.beginDestroy) else w.face? id :=
  face?_of_restand (bare?_restand cell id _ w)

theorem face?_endDestroy (ending : Ending) (w : World K) :
    (endDestroy cell ending w).face? id =
      if cell = id then (w.face? id).map (Face.restand Standing.endDestroy) else w.face? id :=
  face?_of_restand (bare?_endDestroy ending w)

theorem face?_assign (status : Status) (w : World K) :
    (assign cell status w).face? id =
      if cell = id then (w.face? id).map (Face.restand (·.assign status)) else w.face? id :=
  face?_of_restand (bare?_assign status w)

def minding (id : CellId) : Terms K where
  others := Spares id
  own := Spares id
  may := fun _ _ => True
  mayExit := False
  others_refl := .refl id
  others_trans := .trans
  own_of_others h := h
  own_trans := .trans

/-- Terms for a task that works on a cell, among others that leave it where it stands. -/
def working (id : CellId) : Terms K where
  others := Spares id
  own := fun _ _ => True
  may := fun _ _ => True
  mayExit := False
  others_refl := .refl id
  others_trans := .trans
  own_of_others := fun _ => trivial
  own_trans := fun _ _ => trivial

theorem working_of_minding {α : Type} {p : Action K α} {post : Calls K → α → World K → Prop}
    (h : Meets (minding id) p post w) :
    Meets (working id) p (fun calls a v => Spares id w v ∧ post calls a v) w :=
  h.own.relax (fun _ _ h => h) (fun _ _ _ => trivial) (fun _ _ _ => trivial) fun h => h

theorem spares_of_minding {α : Type} {p : Action K α} {post : Calls K → α → World K → Prop}
    (h : Meets (minding id) p post w) : Meets (working id) p (fun _ _ v => Spares id w v) w :=
  (working_of_minding h).mono fun _ _ _ hv => hv.1

theorem lends_minding : Lends (minding (K := K) id) where
  note v line := spares_of_eq (face?_note v line)
  report v notice := spares_of_eq (face?_report v notice)
  mini _ _ _ := trivial
  putBack := by
    intro v w cell c inner hc hlike hown face hface
    rw [face?_modifyCell]
    split
    · subst cell
      have hsame : w.face? id = some c.face := hown _ (face?_of_cell? hc)
      obtain ⟨d, hd, hdc⟩ := exists_cell_of_face? hsame
      have hmini : d.isMini = ({ d with inner } : Cell K).isMini :=
        (congrArg Face.isMini hdc).trans hlike
      obtain rfl : d.face = face := hdc.trans (Option.some.inj (hsame.symm.trans hface))
      simp [hd, face, ← hmini]
    · exact hface

def Yielding (T : Terms K) (cell : CellId) (w : World K) : Prop :=
  ∀ (f : Standing → Standing) (u v : World K), T.own w u → Keeps (fun _ => False) u v →
    (∀ id, v.face? id = if cell = id then (u.face? id).map (Face.restand f) else u.face? id) →
      T.own u v

namespace Yielding

variable {T : Terms K} {u v : World K}

theorem plain (h : Yielding T cell w) (hu : T.own w u) (hkeeps : Keeps (fun _ => False) u v)
    (hface : ∀ id, v.face? id = u.face? id) : T.own u v :=
  h id u v hu hkeeps fun x => by
    have hid : Face.restand id = id := rfl
    rw [hface x, hid, Option.map_id_fun, id_eq, ite_self]

theorem endBuild (h : Yielding T cell w) (hu : T.own w u) (scope : Scope) (ending : Ending)
    (report : Report) (previous : Status) :
    T.own u (Cell.endBuild cell scope ending report previous u) :=
  h _ _ _ hu (keeps_endBuild scope ending report previous) fun _ =>
    face?_endBuild scope ending report previous u

theorem endDestroy (h : Yielding T cell w) (hu : T.own w u) (ending : Ending) :
    T.own u (Cell.endDestroy cell ending u) :=
  h _ _ _ hu (keeps_endDestroy ending False.elim) fun _ => face?_endDestroy ending u

end Yielding

theorem quiet_buildMini_of {T : Terms K} (hT : Lends T) (h : Yielding T cell w) (token : Token) :
    Quiet T (buildMini cell token) w := by
  refine .bind (quiet_get _) fun started u hu => Meets.acquire ?_
  refine Quiet.bind (quiet_get _) fun previous x hx => Meets.getModify fun v hv => ?_
  have hv' := T.own_trans hu (T.own_trans hx (T.own_of_others hv))
  have hbegin := h _ _ _ hv' keeps_beginBuild fun _ => face?_beginBuild v
  refine ⟨hbegin, Quiet.bind (quiet_passMini hT _) fun ⟨asked, ending⟩ y hy => ?_⟩
  refine .bind (quiet_get _) fun report z hz => ?_
  have hz' := T.own_trans hv' (T.own_trans hbegin (T.own_trans hy hz))
  refine .bind (.modify fun a ha => h.endBuild (T.own_trans hz' (T.own_of_others ha)) _ _ _ _)
    fun _ a ha => Meets.release ?_
  have ha' := T.own_trans hz' ha
  refine Quiet.bind (.modify fun b hb => ?_) fun _ _ _ =>
    Quiet.ite (fun _ => .pure _) fun _ => .pure _
  exact h.plain (T.own_trans ha' (T.own_of_others hb)) (keeps_armAfter report)
    fun _ => face?_armAfter report b

theorem quiet_destroyMini_of {T : Terms K} (hT : Lends T) (h : Yielding T cell w) :
    Quiet T (destroyMini cell : Action K Unit) w := by
  refine .bind (.modify fun u hu => ?_) fun _ u hu => Meets.acquire ?_
  · exact h.plain (T.own_of_others hu) (keeps_cancelTimer u cell) fun _ => face?_cancelTimer u
  refine Meets.get fun v hv => ?_
  split
  · split
    · exact Quiet.bind (quiet_report hT _) fun _ _ _ => Meets.release (Quiet.pure ())
    · refine Meets.modify fun x hx => ?_
      have hx' := T.own_trans hu (T.own_of_others (T.others_trans hv hx))
      have hbegin := h _ _ _ hx' keeps_beginDestroy fun _ => face?_beginDestroy x
      refine ⟨hbegin, Quiet.bind (quiet_tearMini hT) fun ending y hy => ?_⟩
      refine Meets.modify fun z hz => ⟨h.endDestroy ?_ ending, Meets.release (Quiet.pure ())⟩
      exact T.own_trans hx' (T.own_trans hbegin (T.own_trans hy (T.own_of_others hz)))
  · exact Quiet.pure ()

/-- Terms that leave it to a task where mini-services stand are loose enough for whatever a hook of
a component asks for. -/
theorem quiet_carryPool_of {T : Terms K} (hT : Lends T) (hadd : ∀ v c, T.own v (v.addCell c))
    (h : ∀ v cell, T.own w v → v.holdsMini cell = true → Yielding T cell v)
    (call : PoolHook.Call K.Mini) : Quiet T (carryPool call) w := by
  cases call with
  | plain call => exact quiet_carry hT call
  | report notice => exact quiet_report hT notice
  | enroll name mini =>
    exact Meets.of_bind_pure (Meets.getModify fun v _ => ⟨hadd v _, Quiet.pure _⟩)
  | build cell token =>
    refine Meets.get fun v hv => Quiet.ite (fun hmini => ?_) fun _ => Quiet.pure _
    exact quiet_buildMini_of hT (h v cell (T.own_of_others hv) hmini) token
  | destroy cell =>
    refine Meets.get fun v hv => Quiet.ite (fun hmini => ?_) fun _ => Quiet.pure _
    exact quiet_destroyMini_of hT (h v cell (T.own_of_others hv) hmini)

theorem yielding_minding (hne : cell ≠ id) : Yielding (minding id) cell w :=
  fun _ _ _ _ _ hface => spares_of_eq ((hface id).trans (if_neg hne))

theorem quiet_carryPool_beside {name : String} (hid : w.Houses id name)
    (call : PoolHook.Call K.Mini) : Quiet (minding id) (carryPool call) w := by
  refine quiet_carryPool_of lends_minding spares_addCell (fun v cell hv hmini => ?_) call
  refine yielding_minding ?_
  rintro rfl
  obtain ⟨c, hc, -, hservice⟩ := Spares.houses hv hid
  simp [holdsMini, hc, hservice] at hmini

theorem minds_pass (scope : Scope) :
    Meets (minding id) (pass id scope) (fun _ _ _ => True) (w : World K) :=
  (meets_pass_of lends_minding scope (fun _ _ => trivial) fun _ _ ⟨_, hid⟩ call _ hu =>
    quiet_carryPool_beside (hu.houses hid) call).mono fun _ _ _ _ => trivial

theorem minds_tear : Meets (minding id) (tear id) (fun _ _ _ => True) (w : World K) :=
  (meets_tear_of lends_minding (fun _ _ => trivial) fun _ _ ⟨_, hid⟩ call _ hu =>
    quiet_carryPool_beside (hu.houses hid) call).mono fun _ _ _ _ => trivial

end Cell

namespace Rotation

variable {w : World K} {id cell : CellId}

theorem face?_adopt (store : Status) (w : World K) :
    (adopt cell store w).face? id =
      if cell = id then (w.face? id).map (Face.restand (·.assign store)) else w.face? id :=
  face?_of_restand (bare?_adopt store w)

theorem face?_install (attempts : Nat) (w : World K) :
    (install cell attempts w).face? id =
      if cell = id then (w.face? id).map (Face.restand (·.assign .available)) else w.face? id :=
  face?_of_restand (bare?_install attempts w)

@[simp] theorem face?_giveUp (attempts : Nat) (message : String) (w : World K) :
    (giveUp cell attempts message w).face? id = w.face? id :=
  face?_of_bare?_eq (bare?_giveUp attempts message w)

end Rotation

end Steward
