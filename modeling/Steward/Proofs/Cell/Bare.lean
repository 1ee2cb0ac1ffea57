import Steward.Proofs.Cell.Keeping
import Steward.Rotation.Tick
/-!
All of a cell but its lock and its timer. These two may change while a task works on the cell;
whatever else it holds, only a task changes that works on it.
-/
namespace Steward

open Steward.Action World

variable {K : Kit}

/-- A cell without its lock and its timer. -/
def Cell.bare (c : Cell K) : Cell K := { c with lock := .free, timer := none }

namespace World

variable {u v w : World K} {id cell : CellId}

def bare? (w : World K) (id : CellId) : Option (Cell K) := (w.cell? id).map Cell.bare

/-- A cell that is there stays as it is, but for its lock and its timer. -/
def Guards (id : CellId) (v w : World K) : Prop :=
  ∀ c, v.bare? id = some c → w.bare? id = some c

theorem Guards.refl (id : CellId) (w : World K) : Guards id w w := fun _ h => h

theorem Guards.trans (huv : Guards id u v) (hvw : Guards id v w) : Guards id u w :=
  fun c h => hvw c (huv c h)

theorem guards_of_eq (h : w.bare? id = v.bare? id) : Guards id v w := fun _ hc => h.trans hc

theorem bare?_of_cell? {c : Cell K} (h : w.cell? id = some c) : w.bare? id = some c.bare := by
  rw [bare?, h, Option.map_some]

theorem exists_cell_of_bare? {c : Cell K} (h : w.bare? id = some c) :
    ∃ d, w.cell? id = some d ∧ d.bare = c := Option.map_eq_some_iff.1 h

theorem Guards.exists_cell {c : Cell K} (h : Guards id v w) (hc : v.cell? id = some c) :
    ∃ d, w.cell? id = some d ∧ d.bare = c.bare := exists_cell_of_bare? (h _ (bare?_of_cell? hc))

theorem Guards.exists_like {c : Cell K} (h : Guards id v w) (hc : v.cell? id = some c) :
    ∃ d, w.cell? id = some d ∧ d.name = c.name ∧ d.standing = c.standing ∧
      d.pooled = c.pooled := by
  obtain ⟨d, hd, hbare⟩ := h.exists_cell hc
  have hname : d.bare.name = c.bare.name := congrArg Cell.name hbare
  have hstanding : d.bare.standing = c.bare.standing := congrArg Cell.standing hbare
  have hpooled : d.bare.pooled = c.bare.pooled := congrArg Cell.pooled hbare
  exact ⟨d, hd, hname, hstanding, hpooled⟩

theorem bare?_modifyCell {f : Cell K → Cell K} (hf : ∀ c, (f c).bare = f c.bare) :
    (w.modifyCell cell f).bare? id = if cell = id then (w.bare? id).map f else w.bare? id := by
  rw [bare?, cell?_modifyCell]
  split
  · rw [bare?, Option.map_map, Option.map_map]
    exact Option.map_congr fun c _ => hf c
  · rfl

theorem bare?_modifyCell_of_bare {f : Cell K → Cell K} (hf : ∀ c, (f c).bare = c.bare) :
    (w.modifyCell cell f).bare? id = w.bare? id := by
  rw [bare?, cell?_modifyCell]
  split
  · rw [Option.map_map]
    exact Option.map_congr fun c _ => hf c
  · rfl

theorem bare?_of_none (f : Cell K → Cell K) (h : w.cell? cell = none) :
    w.bare? id = if cell = id then (w.bare? id).map f else w.bare? id := by
  split
  · subst cell
    rw [bare?, h, Option.map_none, Option.map_none]
  · rfl

@[simp] theorem bare?_note (w : World K) (line : String) : (w.note line).bare? id = w.bare? id :=
  rfl

@[simp] theorem bare?_report (w : World K) (notice : Notice) :
    (w.report notice).bare? id = w.bare? id := rfl

@[simp] theorem bare?_publish (w : World K) (e : Event) :
    (w.publish cell e).bare? id = w.bare? id := by
  unfold publish
  split
  · split
    · split <;> rfl
    · rfl
  · rfl

@[simp] theorem bare?_cancelTimer (w : World K) : (w.cancelTimer cell).bare? id = w.bare? id := by
  unfold cancelTimer
  split
  · exact bare?_modifyCell_of_bare fun _ => rfl
  · rfl

@[simp] theorem bare?_armTimer (w : World K) : (w.armTimer cell).bare? id = w.bare? id := by
  have h : ((w.cancelTimer cell).modifyCell cell fun c =>
      { c with timer := some (w.cancelTimer cell).nextTask }).bare? id =
        (w.cancelTimer cell).bare? id := bare?_modifyCell_of_bare fun _ => rfl
  exact h.trans (bare?_cancelTimer w)

theorem guards_addCell (w : World K) (c : Cell K) : Guards id w (w.addCell c) := by
  intro d hd
  obtain ⟨e, he, rfl⟩ := exists_cell_of_bare? hd
  have hlt : id < w.cells.size := (Array.getElem?_eq_some_iff.1 he).1
  refine bare?_of_cell? ?_
  rw [cell?, addCell, Array.getElem?_push_lt hlt]
  rwa [cell?, Array.getElem?_eq_getElem hlt] at he

end World

namespace Cell

variable {w : World K} {id cell : CellId} {α : Type}

def restand (f : Standing → Standing) (c : Cell K) : Cell K := { c with standing := f c.standing }

def holding (inner : Inner K) (c : Cell K) : Cell K := { c with inner }

theorem bare?_putBack (cell id : CellId) (inner : Inner K) (w : World K) :
    (w.modifyCell cell fun c => { c with inner }).bare? id =
      if cell = id then (w.bare? id).map (holding inner) else w.bare? id :=
  bare?_modifyCell fun _ => rfl

theorem bare?_restand (cell id : CellId) (f : Standing → Standing) (w : World K) :
    (w.modifyCell cell fun c => { c with standing := f c.standing }).bare? id =
      if cell = id then (w.bare? id).map (restand f) else w.bare? id :=
  bare?_modifyCell fun _ => rfl

theorem bare?_endBuild (scope : Scope) (ending : Ending) (report : Report) (previous : Status)
    (w : World K) : (endBuild cell scope ending report previous w).bare? id =
      if cell = id then (w.bare? id).map (restand (·.endBuild report scope.disabled))
      else w.bare? id := by
  unfold endBuild
  split
  · exact bare?_of_none _ ‹_›
  · simp only [bare?_publish, bare?_report]
    exact bare?_restand cell id (·.endBuild report scope.disabled) w

@[simp] theorem bare?_armAfter (report : Report) (w : World K) :
    (armAfter cell report w).bare? id = w.bare? id := by
  unfold armAfter
  split
  · split
    · exact bare?_armTimer w
    · rfl
  · rfl

theorem bare?_endDestroy (ending : Ending) (w : World K) :
    (endDestroy cell ending w).bare? id =
      if cell = id then (w.bare? id).map (restand Standing.endDestroy) else w.bare? id := by
  unfold endDestroy
  split
  · exact bare?_of_none _ ‹_›
  · simp only [bare?_publish, bare?_report]
    split <;> exact bare?_restand cell id Standing.endDestroy w

theorem bare?_assign (status : Status) (w : World K) :
    (assign cell status w).bare? id =
      if cell = id then (w.bare? id).map (restand (·.assign status)) else w.bare? id := by
  unfold assign
  split
  · exact bare?_of_none _ ‹_›
  · simp only [bare?_publish]
    split
    · exact bare?_restand cell id (·.assign status) w
    · simp only [bare?_report]
      exact bare?_restand cell id (·.assign status) w

end Cell

namespace Rotation

variable {w : World K} {id cell : CellId}

theorem bare?_adopt (store : Status) (w : World K) :
    (adopt cell store w).bare? id =
      if cell = id then (w.bare? id).map (Cell.restand (·.assign store)) else w.bare? id := by
  unfold adopt
  split
  · exact bare?_of_none _ ‹_›
  · simp only [bare?_publish, bare?_report]
    exact Cell.bare?_restand cell id (·.assign store) w

theorem bare?_install (attempts : Nat) (w : World K) :
    (install cell attempts w).bare? id =
      if cell = id then (w.bare? id).map (Cell.restand (·.assign .available)) else w.bare? id := by
  unfold install
  split
  · exact bare?_of_none _ ‹_›
  · dsimp only
    split <;>
    · simp only [bare?_publish, bare?_report]
      exact Cell.bare?_restand cell id (·.assign .available) w

@[simp] theorem bare?_giveUp (attempts : Nat) (message : String) (w : World K) :
    (giveUp cell attempts message w).bare? id = w.bare? id := by
  unfold giveUp
  split
  · rfl
  · rw [bare?_publish, bare?_report]

end Rotation

end Steward
