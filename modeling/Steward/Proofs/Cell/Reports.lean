import Steward.Proofs.Cell.Sparing
/-!
What operations on cells leave as it is, whatever the world is that they find. None of them changes
who belongs to the fleet, none takes cells away, and a cell of which a report was made once has a
report from then on.
-/
namespace Steward

open Steward.Action

variable {K : Kit} {α β : Type}

namespace Action

/-- Each change of a program is as `change` says, and whatever it calls is as `may` says, in
whatever worlds it comes to its effects. -/
inductive Sticks (change : World K → World K → Prop) (may : Invocation → Prop) {α : Type} :
    Action K α → Prop
  | done (a : α) : Sticks change may (.done a)
  | update {f : World K → World K} {next : World K → Action K α} (h : ∀ w, change w (f w))
      (rest : ∀ w, Sticks change may (next w)) : Sticks change may (.call (.update f) next)
  | invoke {what : Invocation} {next : World K → Action K α} (h : may what)
      (rest : ∀ w, Sticks change may (next w)) : Sticks change may (.call (.invoke what) next)
  | acquire {cell : CellId} {access : Access} {next : Unit → Action K α}
      (rest : Sticks change may (next ())) : Sticks change may (.call (.acquire cell access) next)
  | release {cell : CellId} {next : Unit → Action K α} (rest : Sticks change may (next ())) :
      Sticks change may (.call (.release cell) next)
  | rest {millis : Nat} {next : Unit → Action K α} (rest : Sticks change may (next ())) :
      Sticks change may (.call (.rest millis) next)
  | restUnlessCancelled {millis : Nat} {next : Bool → Action K α}
      (rest : ∀ isCancelled, Sticks change may (next isCancelled)) :
      Sticks change may (.call (.restUnlessCancelled millis) next)
  | exit {code : UInt8} {next : Empty → Action K α} : Sticks change may (.call (.exit code) next)

section Sticks

variable {change : World K → World K → Prop} {may : Invocation → Prop} {p : Action K α}
  {f : α → Action K β}

theorem Sticks.bind (h : Sticks change may p) (hf : ∀ a, Sticks change may (f a)) :
    Sticks change may (p >>= f) := by
  induction h with
  | done a => exact hf a
  | update h _ ih => exact .update h ih
  | invoke h _ ih => exact .invoke h ih
  | acquire _ ih => exact .acquire ih
  | release _ ih => exact .release ih
  | rest _ ih => exact .rest ih
  | restUnlessCancelled _ ih => exact .restUnlessCancelled ih
  | exit => exact .exit

theorem Sticks.pure (a : α) : Sticks change may (Pure.pure a : Action K α) := .done a

theorem Sticks.modify {f : World K → World K} (h : ∀ w, change w (f w)) :
    Sticks change may (Action.modify f) := .update h fun _ => .done ()

theorem Sticks.getModify {f : World K → α} {g : World K → World K} (h : ∀ w, change w (g w)) :
    Sticks change may (Action.getModify f g) := .update h fun _ => .done _

theorem Sticks.call {what : Invocation} {f : World K → α} (h : may what) :
    Sticks change may (Action.invoke what f) := .invoke h fun _ => .done _

theorem Sticks.ite {c : Prop} [Decidable c] {q : Action K α} (hp : Sticks change may p)
    (hq : Sticks change may q) : Sticks change may (if c then p else q) := by
  split
  · exact hp
  · exact hq

theorem Sticks.interpret {ι : Type} {Answer : ι → Type} {carry : (i : ι) → Action K (Answer i)}
    (h : ∀ i, Sticks change may (carry i)) (hook : Program Answer α) :
    Sticks change may (hook.interpret carry) := by
  induction hook with
  | done a => exact .done a
  | call i next ih => exact (h i).bind ih

end Sticks

end Action

namespace World

variable {u v w : World K} {id cell : CellId}

/-- Some build pass on a cell was through, be it usable or not. -/
def Reported (w : World K) (id : CellId) : Prop :=
  ∃ face, w.face? id = some face ∧ face.standing.lastReport.isSome = true

structure KeepsReports (v w : World K) : Prop where
  cells : ∀ id, (v.face? id).isSome = true → (w.face? id).isSome = true
  reported : ∀ id, v.Reported id → w.Reported id

theorem KeepsReports.refl (w : World K) : w.KeepsReports w := ⟨fun _ h => h, fun _ h => h⟩

theorem KeepsReports.trans (huv : u.KeepsReports v) (hvw : v.KeepsReports w) :
    u.KeepsReports w where
  cells id h := hvw.cells id (huv.cells id h)
  reported id h := hvw.reported id (huv.reported id h)

theorem keepsReports_of_eq (hcells : w.cells = v.cells) : v.KeepsReports w := by
  have hface (id : CellId) : w.face? id = v.face? id := by rw [face?, face?, cell?, cell?, hcells]
  exact ⟨fun id h => by rwa [hface], fun id h => by rwa [Reported, hface]⟩

/-- The fleet and its configuration stay as they are, and cells keep what reports they have. -/
structure Retains (v w : World K) : Prop extends KeepsReports v w where
  roster : w.roster = v.roster
  config : w.config = v.config

theorem Retains.refl (w : World K) : w.Retains w := ⟨.refl w, rfl, rfl⟩

theorem Retains.trans (huv : u.Retains v) (hvw : v.Retains w) : u.Retains w where
  toKeepsReports := huv.toKeepsReports.trans hvw.toKeepsReports
  roster := hvw.roster.trans huv.roster
  config := hvw.config.trans huv.config

theorem retains_of_face (f : Face → Face) (hkeeps : Keeps (fun _ => False) v w)
    (hf : ∀ face : Face, face.standing.lastReport.isSome = true →
      (f face).standing.lastReport.isSome = true)
    (hface : ∀ id, w.face? id = if cell = id then (v.face? id).map f else v.face? id) :
    v.Retains w where
  roster := hkeeps.roster
  config := hkeeps.config
  cells id h := by
    rw [hface]
    split
    · rwa [Option.isSome_map]
    · exact h
  reported id h := by
    obtain ⟨face, hsome, hreport⟩ := h
    rw [Reported, hface]
    split
    · exact ⟨f face, by rw [hsome, Option.map_some], hf face hreport⟩
    · exact ⟨face, hsome, hreport⟩

theorem retains_of_spares (hkeeps : Keeps (fun _ => False) v w) (h : ∀ id, Spares id v w) :
    v.Retains w where
  roster := hkeeps.roster
  config := hkeeps.config
  cells id hsome := by
    obtain ⟨face, hface⟩ := Option.isSome_iff_exists.1 hsome
    rw [h id face hface]
    rfl
  reported id := fun ⟨face, hface, hreport⟩ => ⟨face, h id face hface, hreport⟩

theorem retains_note (w : World K) (line : String) : w.Retains (w.note line) :=
  retains_of_spares (keeps_note w line) fun _ => spares_of_eq (face?_note w line)

theorem retains_notes (lines : List String) (w : World K) :
    w.Retains (lines.foldl World.note w) := by
  induction lines generalizing w with
  | nil => exact .refl w
  | cons line lines ih => exact (retains_note w line).trans (ih _)

theorem retains_report (w : World K) (notice : Notice) : w.Retains (w.report notice) :=
  retains_of_spares (keeps_report w notice) fun _ => spares_of_eq (face?_report w notice)

theorem retains_reports (notices : List Notice) (w : World K) :
    w.Retains (notices.foldl World.report w) := by
  induction notices generalizing w with
  | nil => exact .refl w
  | cons notice notices ih => exact (retains_report w notice).trans (ih _)

theorem retains_addCell (w : World K) (c : Cell K) : w.Retains (w.addCell c) :=
  retains_of_spares (keeps_addCell w c) fun _ => spares_addCell w c

theorem retains_cancelTimer (w : World K) (id : CellId) : w.Retains (w.cancelTimer id) :=
  retains_of_spares (keeps_cancelTimer w id) fun _ => spares_of_eq (face?_cancelTimer w)

theorem retains_putBack (w : World K) (id : CellId) (inner : Inner K) :
    w.Retains (w.modifyCell id fun c => { c with inner }) where
  roster := rfl
  config := rfl
  cells cell h := by
    rw [face?_modifyCell]
    split
    · rw [Option.isSome_map]
      rwa [face?, Option.isSome_map] at h
    · exact h
  reported cell h := by
    obtain ⟨face, hface, hreport⟩ := h
    rw [Reported, face?_modifyCell]
    split
    · obtain ⟨c, hc, rfl⟩ := exists_cell_of_face? hface
      exact ⟨({ c with inner } : Cell K).face, by rw [hc, Option.map_some], hreport⟩
    · exact ⟨face, hface, hreport⟩

end World

namespace Cell

open World

variable {id : CellId} {w : World K}

theorem retains_beginBuild (w : World K) (id : CellId) :
    w.Retains (w.modifyCell id fun c => { c with standing := c.standing.beginBuild }) :=
  retains_of_face (Face.restand Standing.beginBuild) keeps_beginBuild (fun _ h => h)
    fun _ => face?_beginBuild w

theorem retains_endBuild (scope : Scope) (ending : Ending) (report : Report) (previous : Status)
    (w : World K) : w.Retains (endBuild id scope ending report previous w) :=
  retains_of_face (Face.restand (·.endBuild report scope.disabled))
    (keeps_endBuild scope ending report previous) (fun _ _ => rfl)
    fun _ => face?_endBuild scope ending report previous w

theorem reported_endBuild (scope : Scope) (ending : Ending) (report : Report) (previous : Status)
    (h : (w.face? id).isSome = true) :
    (endBuild id scope ending report previous w).Reported id := by
  obtain ⟨face, hface⟩ := Option.isSome_iff_exists.1 h
  exact ⟨_, by rw [face?_endBuild, if_pos rfl, hface, Option.map_some], rfl⟩

theorem retains_armAfter (report : Report) (w : World K) : w.Retains (armAfter id report w) :=
  retains_of_spares (keeps_armAfter report) fun _ => spares_of_eq (face?_armAfter report w)

theorem retains_beginDestroy (w : World K) (id : CellId) :
    w.Retains (w.modifyCell id fun c => { c with standing := c.standing.beginDestroy }) :=
  retains_of_face (Face.restand Standing.beginDestroy) keeps_beginDestroy (fun _ h => h)
    fun _ => face?_beginDestroy w

theorem retains_endDestroy (ending : Ending) (w : World K) :
    w.Retains (endDestroy id ending w) :=
  retains_of_face (Face.restand Standing.endDestroy) (keeps_endDestroy ending False.elim)
    (fun _ h => h) fun _ => face?_endDestroy ending w

variable {may : Invocation → Prop}

abbrev Mild {α : Type} (may : Invocation → Prop) (p : Action K α) : Prop :=
  Sticks World.Retains may p

theorem mild_get (f : World K → α) : Mild may (get f) :=
  .update (fun w => Retains.refl w) fun _ => .done _

theorem mild_report (notice : Notice) : Mild may (Action.report (K := K) notice) :=
  .modify fun w => retains_report w notice

theorem mild_reading (f : Option (Cell K) → α) : Mild may (reading id f) :=
  .acquire ((mild_get _).bind fun _ => .release (.pure _))

theorem mild_carry (call : Hook.Call) : Mild (K := K) may (carry call) := by
  cases call with
  | note line => exact .modify fun w => retains_note w line
  | rest millis => exact .rest (.pure ())
  | statusOf cell =>
    show Mild may (status cell)
    exact mild_reading _
  | clock => exact mild_get _

theorem mild_putBack (inner : Inner K) : Mild may (putBack id inner) :=
  .modify fun w => retains_putBack w id inner

theorem mild_passMini (hmay : ∀ what, what.isOfMini = true → may what) (scope : Scope) :
    Mild (K := K) may (passMini id scope) := by
  refine (mild_get _).bind fun inner => ?_
  split
  · refine (Sticks.call (hmay _ rfl)).bind fun _ => ?_
    exact (Sticks.interpret mild_carry _).bind fun _ => (mild_putBack _).bind fun _ => .pure _
  · exact .pure _

theorem mild_tearMini (hmay : ∀ what, what.isOfMini = true → may what) :
    Mild (K := K) may (tearMini id) := by
  refine (mild_get _).bind fun inner => ?_
  split
  · refine (Sticks.call (hmay _ rfl)).bind fun _ => ?_
    exact (Sticks.interpret mild_carry _).bind fun _ => (mild_putBack _).bind fun _ => .pure _
  · exact .pure _

theorem mild_buildWith {pass : CellId → Scope → Action K (Scope × Ending)} {token : Token}
    (hpass : ∀ scope, Mild may (pass id scope)) : Mild may (buildWith pass id token) := by
  refine (mild_get _).bind fun started => Sticks.acquire <| ?_
  refine (mild_get _).bind fun previous => ?_
  refine (Sticks.getModify fun w => retains_beginBuild w id).bind fun name => ?_
  refine (hpass _).bind fun ⟨asked, ending⟩ => (mild_get _).bind fun report => ?_
  refine (Sticks.modify fun w => retains_endBuild _ _ _ _ w).bind fun _ => ?_
  refine Sticks.release ((Sticks.modify fun w => retains_armAfter _ w).bind fun _ => ?_)
  exact .ite (.pure _) (.pure _)

theorem mild_destroyWith {tear : CellId → Action K Ending} (htear : Mild may (tear id)) :
    Mild may (destroyWith tear id) := by
  refine (Sticks.modify fun w => retains_cancelTimer w id).bind fun _ => ?_
  refine Sticks.acquire <| (mild_get _).bind fun c => ?_
  cases c with
  | none => exact .pure ()
  | some c =>
    refine .ite ((mild_report _).bind fun _ => .release (.pure ())) ?_
    refine (Sticks.modify fun w => retains_beginDestroy w id).bind fun _ => htear.bind fun _ => ?_
    exact (Sticks.modify fun w => retains_endDestroy _ w).bind fun _ => .release (.pure ())

theorem mild_carryPool (hmay : ∀ what, what.isOfMini = true → may what)
    (call : PoolHook.Call K.Mini) : Mild may (carryPool call) := by
  cases call with
  | plain call => exact mild_carry call
  | report notice => exact mild_report notice
  | enroll name mini => exact .getModify fun w => retains_addCell w _
  | build cell token =>
    exact (mild_get _).bind fun _ => .ite (mild_buildWith fun _ => mild_passMini hmay _) (.pure _)
  | destroy cell =>
    exact (mild_get _).bind fun _ => .ite (mild_destroyWith (mild_tearMini hmay)) (.pure _)

theorem mild_pass (hmay : ∀ what, what.isOfMini = true → may what) {scope : Scope}
    (hbuild : may (.build id scope.token)) : Mild (K := K) may (pass id scope) := by
  refine (mild_get _).bind fun inner => ?_
  split
  · refine (Sticks.call hbuild).bind fun _ => ?_
    refine (Sticks.interpret (mild_carryPool hmay) _).bind fun _ => ?_
    exact (mild_putBack _).bind fun _ => .pure _
  · exact mild_passMini hmay scope

theorem mild_tear (hmay : ∀ what, what.isOfMini = true → may what) (hdestroy : may (.destroy id)) :
    Mild (K := K) may (tear id) := by
  refine (mild_get _).bind fun inner => ?_
  split
  · refine (Sticks.call hdestroy).bind fun _ => ?_
    refine (Sticks.interpret (mild_carryPool hmay) _).bind fun _ => ?_
    exact (mild_putBack _).bind fun _ => .pure _
  · exact mild_tearMini hmay

end Cell

end Steward
