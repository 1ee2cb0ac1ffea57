import Steward.Cell.Operations
import Steward.Proofs.Execution
/-!
What stays of the cells of a world while tasks work on them. No cell goes away or takes another
name, and none comes to hold a mini-service instead of a component. Of the components that a task
spares, none is destroyed by it.
-/
namespace Steward

variable {K : Kit}

/-- What stays of a cell, and of a component that is spared. -/
structure Cell.Endures (spared : Prop) (c c' : Cell K) : Prop where
  name : c'.name = c.name
  isMini : c'.isMini = c.isMini
  destroyed : spared → c.isMini = false → c'.standing.destroyed = true →
    c.standing.destroyed = true

namespace Cell.Endures

theorem refl (spared : Prop) (c : Cell K) : c.Endures spared c := ⟨rfl, rfl, fun _ _ h => h⟩

theorem trans {spared : Prop} {b c d : Cell K} (hbc : b.Endures spared c)
    (hcd : c.Endures spared d) : b.Endures spared d where
  name := hcd.name.trans hbc.name
  isMini := hcd.isMini.trans hbc.isMini
  destroyed hs hb hd := hbc.destroyed hs hb (hcd.destroyed hs (hbc.isMini.trans hb) hd)

theorem of_eq {spared : Prop} {c c' : Cell K} (hname : c'.name = c.name)
    (hinner : c'.inner = c.inner) (hstanding : c'.standing = c.standing) :
    c.Endures spared c' :=
  ⟨hname, by rw [Cell.isMini, Cell.isMini, hinner], fun _ _ h => by rwa [hstanding] at h⟩

end Cell.Endures

namespace World

def KeepsCells (spared : CellId → Prop) (v w : World K) : Prop :=
  ∀ id c, v.cell? id = some c → ∃ c', w.cell? id = some c' ∧ c.Endures (spared id) c'

/-- All cells endure, and neither who belongs to the fleet nor the configuration changes. -/
structure Keeps (spared : CellId → Prop) (v w : World K) : Prop where
  roster : w.roster = v.roster
  config : w.config = v.config
  cells : KeepsCells spared v w

/-- A cell is there that holds a component of a certain name. -/
def Houses (w : World K) (id : CellId) (name : String) : Prop :=
  ∃ c, w.cell? id = some c ∧ c.name = name ∧ c.isMini = false

def IsStanding (w : World K) (id : CellId) : Prop :=
  ∃ c, w.cell? id = some c ∧ c.isMini = false ∧ c.standing.destroyed = false

variable {spared : CellId → Prop} {u v w : World K}

theorem KeepsCells.refl (spared : CellId → Prop) (w : World K) : KeepsCells spared w w :=
  fun _ c hc => ⟨c, hc, .refl _ c⟩

theorem KeepsCells.trans (huv : KeepsCells spared u v) (hvw : KeepsCells spared v w) :
    KeepsCells spared u w := by
  intro id c hc
  obtain ⟨d, hd, hcd⟩ := huv id c hc
  obtain ⟨e, he, hde⟩ := hvw id d hd
  exact ⟨e, he, hcd.trans hde⟩

theorem KeepsCells.mono {spared' : CellId → Prop} (h : KeepsCells spared v w)
    (hsub : ∀ id, spared' id → spared id) : KeepsCells spared' v w := by
  intro id c hc
  obtain ⟨d, hd, hcd⟩ := h id c hc
  exact ⟨d, hd, hcd.name, hcd.isMini, fun hs => hcd.destroyed (hsub id hs)⟩

theorem KeepsCells.houses {id : CellId} {name : String} (h : KeepsCells spared v w)
    (hid : v.Houses id name) : w.Houses id name := by
  obtain ⟨c, hc, hname, hmini⟩ := hid
  obtain ⟨d, hd, hcd⟩ := h id c hc
  exact ⟨d, hd, hcd.name.trans hname, hcd.isMini.trans hmini⟩

theorem KeepsCells.isStanding {id : CellId} (h : KeepsCells spared v w) (hs : spared id)
    (hid : v.IsStanding id) : w.IsStanding id := by
  obtain ⟨c, hc, hmini, hstanding⟩ := hid
  obtain ⟨d, hd, hcd⟩ := h id c hc
  refine ⟨d, hd, hcd.isMini.trans hmini, Bool.eq_false_iff.2 fun hdestroyed => ?_⟩
  rw [hcd.destroyed hs hmini hdestroyed] at hstanding
  exact Bool.noConfusion hstanding

theorem Keeps.refl (spared : CellId → Prop) (w : World K) : Keeps spared w w :=
  ⟨rfl, rfl, .refl spared w⟩

theorem Keeps.trans (huv : Keeps spared u v) (hvw : Keeps spared v w) : Keeps spared u w :=
  ⟨hvw.roster.trans huv.roster, hvw.config.trans huv.config, huv.cells.trans hvw.cells⟩

theorem keeps_of_eq (hroster : w.roster = v.roster) (hconfig : w.config = v.config)
    (hcells : w.cells = v.cells) : Keeps spared v w :=
  ⟨hroster, hconfig, fun id c hc => ⟨c, by rwa [cell?, hcells], .refl _ c⟩⟩

theorem cell?_modifyCell (w : World K) (id cell : CellId) (f : Cell K → Cell K) :
    (w.modifyCell id f).cell? cell = if id = cell then (w.cell? cell).map f else w.cell? cell := by
  simp only [cell?, modifyCell, Array.getElem?_modify]

theorem keeps_modifyCell {id : CellId} {f : Cell K → Cell K}
    (hf : ∀ c, w.cell? id = some c → c.Endures (spared id) (f c)) :
    Keeps spared w (w.modifyCell id f) := by
  refine ⟨rfl, rfl, fun cell c hc => ?_⟩
  rw [cell?_modifyCell]
  by_cases hid : id = cell
  · subst hid
    exact ⟨f c, by simp [hc], hf c hc⟩
  · exact ⟨c, by rw [if_neg hid, hc], .refl _ c⟩

theorem keeps_addCell (w : World K) (c : Cell K) : Keeps spared w (w.addCell c) := by
  refine ⟨rfl, rfl, fun id d hd => ⟨d, ?_, .refl _ d⟩⟩
  have hlt : id < w.cells.size := (Array.getElem?_eq_some_iff.1 hd).1
  rw [cell?, addCell, Array.getElem?_push_lt hlt]
  rwa [cell?, Array.getElem?_eq_getElem hlt] at hd

theorem keeps_note (w : World K) (line : String) : Keeps spared w (w.note line) :=
  keeps_of_eq rfl rfl rfl

theorem keeps_report (w : World K) (notice : Notice) : Keeps spared w (w.report notice) :=
  keeps_of_eq rfl rfl rfl

theorem keeps_notes (spared : CellId → Prop) (lines : List String) (w : World K) :
    Keeps spared w (lines.foldl World.note w) := by
  induction lines generalizing w with
  | nil => exact .refl spared w
  | cons line rest ih => exact (keeps_note w line).trans (ih (w.note line))

theorem keeps_reports (spared : CellId → Prop) (notices : List Notice) (w : World K) :
    Keeps spared w (notices.foldl World.report w) := by
  induction notices generalizing w with
  | nil => exact .refl spared w
  | cons notice rest ih => exact (keeps_report w notice).trans (ih (w.report notice))

theorem keeps_publish (w : World K) (id : CellId) (e : Event) :
    Keeps spared w (w.publish id e) := by
  unfold publish
  split
  · split
    · split
      · exact keeps_of_eq rfl rfl rfl
      · exact keeps_report w _
    · exact .refl spared w
  · exact .refl spared w

theorem keeps_cancelTimer (w : World K) (id : CellId) : Keeps spared w (w.cancelTimer id) := by
  unfold cancelTimer
  split
  · have h : Keeps spared w (w.modifyCell id fun c => { c with timer := none }) :=
      keeps_modifyCell fun c _ => .of_eq rfl rfl rfl
    exact h.trans (keeps_of_eq rfl rfl rfl)
  · exact .refl spared w

theorem keeps_armTimer (w : World K) (id : CellId) : Keeps spared w (w.armTimer id) := by
  have h : Keeps spared (w.cancelTimer id)
      ((w.cancelTimer id).modifyCell id fun c =>
        { c with timer := some (w.cancelTimer id).nextTask }) :=
    keeps_modifyCell fun c _ => .of_eq rfl rfl rfl
  exact ((keeps_cancelTimer w id).trans h).trans (keeps_of_eq rfl rfl rfl)

end World

namespace Cell

open World

variable {spared : CellId → Prop} {w : World K} {id : CellId}

theorem keeps_beginBuild :
    Keeps spared w (w.modifyCell id fun c => { c with standing := c.standing.beginBuild }) :=
  keeps_modifyCell fun _ _ => ⟨rfl, rfl, fun _ _ h => h⟩

theorem keeps_endBuild (scope : Scope) (ending : Ending) (report : Report) (previous : Status) :
    Keeps spared w (endBuild id scope ending report previous w) := by
  unfold endBuild
  split
  · exact .refl spared w
  · have h : Keeps spared w
        (w.modifyCell id fun c =>
          { c with standing := c.standing.endBuild report scope.disabled }) :=
      keeps_modifyCell fun _ _ => ⟨rfl, rfl, fun _ _ h => Bool.noConfusion h⟩
    exact (h.trans (keeps_report _ _)).trans (keeps_publish _ id _)

theorem keeps_armAfter (report : Report) : Keeps spared w (armAfter id report w) := by
  unfold armAfter
  split
  · split
    · exact keeps_armTimer w id
    · exact .refl spared w
  · exact .refl spared w

theorem keeps_beginDestroy :
    Keeps spared w (w.modifyCell id fun c => { c with standing := c.standing.beginDestroy }) :=
  keeps_modifyCell fun _ _ => ⟨rfl, rfl, fun _ _ h => h⟩

theorem keeps_endDestroy (ending : Ending) (hid : spared id → w.holdsMini id = true) :
    Keeps spared w (endDestroy id ending w) := by
  unfold endDestroy
  split
  · exact .refl spared w
  · have h : Keeps spared w
        (w.modifyCell id fun c => { c with standing := c.standing.endDestroy }) := by
      refine keeps_modifyCell fun c hc => ⟨rfl, rfl, fun hs hmini _ => ?_⟩
      have hholds := hid hs
      simp [holdsMini, hc, hmini] at hholds
    refine (h.trans ?_).trans (((keeps_report _ _).trans (keeps_publish _ id _)))
    split
    · exact keeps_report _ _
    · exact .refl spared _

theorem keeps_assign (status : Status) : Keeps spared w (assign id status w) := by
  unfold assign
  split
  · exact .refl spared w
  · have h : Keeps spared w
        (w.modifyCell id fun c => { c with standing := c.standing.assign status }) :=
      keeps_modifyCell fun _ _ => ⟨rfl, rfl, fun _ _ h => h⟩
    refine (h.trans ?_).trans (keeps_publish _ id _)
    split
    · exact .refl spared _
    · exact keeps_report _ _

theorem keeps_putBack {inner : Inner K}
    (h : ∀ c, w.cell? id = some c → c.isMini = ({ c with inner } : Cell K).isMini) :
    Keeps spared w (w.modifyCell id fun c => { c with inner }) :=
  keeps_modifyCell fun c hc => ⟨rfl, (h c hc).symm, fun _ _ h => h⟩

end Cell

end Steward
