import Steward.Proofs.Cell.Building
import Steward.Proofs.Cell.Request
import Steward.Proofs.Rotation.Slot
/-!
The timers of all cells, and what keeps them in order. Each has a number of its own, and is armed
just as long as it is in the slot of its cell. Whatever tasks do to whatever cells, this stays so:
most changes have nothing to do with timers, and the two that do empty a slot or put a new timer
there.
-/
namespace Steward

open Steward.Action

variable {K : Kit} {α : Type}

namespace World

variable {u v w : World K} {id cell : CellId} {task : TaskId}

def rotates? (w : World K) (id : CellId) : Option Bool := (w.cell? id).map (·.rotates)

structure Wound (w : World K) : Prop where
  launched : ∀ task cell, (task, cell) ∈ w.launched → task < w.nextTask
  cancelled : ∀ task ∈ w.cancelled, task < w.nextTask
  owner : ∀ task cell cell', (task, cell) ∈ w.launched → (task, cell') ∈ w.launched → cell = cell'
  slot : ∀ cell task, w.timer? cell = some task ↔ w.Armed cell task

theorem Wound.armed_unique (h : w.Wound) {task task' : TaskId} (harmed : w.Armed id task)
    (harmed' : w.Armed id task') : task = task' :=
  Option.some.inj (((h.slot id task).2 harmed).symm.trans ((h.slot id task').2 harmed'))

theorem wound_of_idle (hlaunched : w.launched = []) (hcancelled : w.cancelled = [])
    (htimer : ∀ cell, w.timer? cell = none) : w.Wound where
  launched := by simp [hlaunched]
  cancelled := by simp [hcancelled]
  owner := by simp [hlaunched]
  slot := by simp [htimer, Armed, hlaunched]

structure Idles (v w : World K) : Prop where
  launched : w.launched = v.launched
  cancelled : w.cancelled = v.cancelled
  nextTask : w.nextTask = v.nextTask
  timer : ∀ cell, w.timer? cell = v.timer? cell
  rotates : ∀ cell b, v.rotates? cell = some b → w.rotates? cell = some b

theorem Idles.refl (w : World K) : Idles w w := ⟨rfl, rfl, rfl, fun _ => rfl, fun _ _ h => h⟩

theorem Idles.trans (huv : Idles u v) (hvw : Idles v w) : Idles u w where
  launched := hvw.launched.trans huv.launched
  cancelled := hvw.cancelled.trans huv.cancelled
  nextTask := hvw.nextTask.trans huv.nextTask
  timer cell := (hvw.timer cell).trans (huv.timer cell)
  rotates cell b h := hvw.rotates cell b (huv.rotates cell b h)

theorem Idles.wound (h : Idles v w) (hv : v.Wound) : w.Wound where
  launched := by rw [h.launched, h.nextTask]; exact hv.launched
  cancelled := by rw [h.cancelled, h.nextTask]; exact hv.cancelled
  owner := by rw [h.launched]; exact hv.owner
  slot cell task := by rw [h.timer, Armed, h.launched, h.cancelled]; exact hv.slot cell task

theorem timer?_modifyCell (w : World K) (cell id : CellId) (f : Cell K → Cell K) :
    (w.modifyCell cell f).timer? id =
      if cell = id then (w.cell? id).bind fun c => (f c).timer else w.timer? id := by
  rw [timer?, cell?_modifyCell]
  split
  · rw [Option.bind_map]
    rfl
  · rfl

theorem rotates?_modifyCell {f : Cell K → Cell K} (hf : ∀ c, (f c).rotates = c.rotates) :
    (w.modifyCell cell f).rotates? id = w.rotates? id := by
  rw [rotates?, cell?_modifyCell]
  split
  · rw [Option.map_map]
    exact Option.map_congr fun c _ => hf c
  · rfl

theorem idles_modifyCell {f : Cell K → Cell K} (htimer : ∀ c, (f c).timer = c.timer)
    (hrotates : ∀ c, (f c).rotates = c.rotates) : Idles w (w.modifyCell cell f) where
  launched := rfl
  cancelled := rfl
  nextTask := rfl
  timer id := by
    rw [timer?_modifyCell, timer?]
    simp only [htimer, ite_self]
  rotates id b h := (rotates?_modifyCell hrotates).trans h

theorem idles_restand (cell : CellId) (f : Standing → Standing) (w : World K) :
    Idles w (w.modifyCell cell fun c => { c with standing := f c.standing }) :=
  idles_modifyCell (fun _ => rfl) fun _ => rfl

theorem idles_of_cells (hcells : w.cells = v.cells) (hlaunched : w.launched = v.launched)
    (hcancelled : w.cancelled = v.cancelled) (hnext : w.nextTask = v.nextTask) : Idles v w where
  launched := hlaunched
  cancelled := hcancelled
  nextTask := hnext
  timer id := by rw [timer?, timer?, cell?, cell?, hcells]
  rotates id b h := by rwa [rotates?, cell?, hcells]

theorem idles_note (w : World K) (line : String) : Idles w (w.note line) :=
  idles_of_cells rfl rfl rfl rfl

theorem idles_report (w : World K) (notice : Notice) : Idles w (w.report notice) :=
  idles_of_cells rfl rfl rfl rfl

theorem idles_publish (w : World K) (e : Event) : Idles w (w.publish cell e) := by
  unfold publish
  split
  · split
    · split
      · exact idles_of_cells rfl rfl rfl rfl
      · exact idles_report w _
    · exact .refl w
  · exact .refl w

theorem idles_addCell {c : Cell K} (hc : c.timer = none) : Idles w (w.addCell c) where
  launched := rfl
  cancelled := rfl
  nextTask := rfl
  timer id := by
    rw [timer?, timer?, cell?, cell?, addCell, Array.getElem?_push]
    split
    · rename_i hid
      simp [hid, hc]
    · rfl
  rotates id b h := by
    obtain ⟨d, hd, hb⟩ := Option.map_eq_some_iff.1 h
    have hlt : id < w.cells.size := (Array.getElem?_eq_some_iff.1 hd).1
    rw [rotates?, cell?, addCell, Array.getElem?_push_lt hlt, ← Array.getElem?_eq_getElem hlt]
    exact h

theorem timer?_cancelTimer (w : World K) (cell id : CellId) :
    (w.cancelTimer cell).timer? id = if cell = id then none else w.timer? id := by
  unfold cancelTimer
  split
  · show (w.modifyCell cell _).timer? id = _
    rw [timer?_modifyCell]
    simp
  · rename_i hslot
    split
    · rename_i hcell
      exact hcell ▸ hslot
    · rfl

theorem Wound.armed_cancelTimer_iff (h : w.Wound) :
    (w.cancelTimer cell).Armed id task ↔ cell ≠ id ∧ w.Armed id task := by
  unfold cancelTimer
  split
  · rename_i slot hslot
    have howns : w.Armed cell slot := (h.slot cell slot).1 hslot
    constructor
    · rintro ⟨hlaunched, hcancelled⟩
      have harmed : w.Armed id task :=
        ⟨hlaunched, fun hmem => hcancelled (List.mem_append_left _ hmem)⟩
      refine ⟨?_, harmed⟩
      rintro rfl
      obtain rfl := h.armed_unique harmed howns
      exact hcancelled (List.mem_append_right _ (List.mem_singleton_self task))
    · rintro ⟨hne, hlaunched, hcancelled⟩
      refine ⟨hlaunched, fun hmem => ?_⟩
      rcases List.mem_append.1 hmem with hmem | hmem
      · exact hcancelled hmem
      · obtain rfl := List.mem_singleton.1 hmem
        exact hne (h.owner task _ _ howns.1 hlaunched)
  · rename_i hslot
    refine ⟨fun harmed => ⟨?_, harmed⟩, fun harmed => harmed.2⟩
    rintro rfl
    cases hslot.symm.trans ((h.slot cell task).2 harmed)

theorem nextTask_cancelTimer (w : World K) (cell : CellId) :
    (w.cancelTimer cell).nextTask = w.nextTask := by
  unfold cancelTimer
  split <;> rfl

theorem Wound.cancelTimer (h : w.Wound) : (w.cancelTimer cell).Wound where
  launched task c hmem := by
    rw [launched_cancelTimer] at hmem
    rw [nextTask_cancelTimer]
    exact h.launched task c hmem
  cancelled := by
    rw [nextTask_cancelTimer]
    unfold World.cancelTimer
    split
    · rename_i slot hslot
      have howns : w.Armed cell slot := (h.slot cell slot).1 hslot
      intro task hmem
      rcases List.mem_append.1 hmem with hmem | hmem
      · exact h.cancelled task hmem
      · exact List.mem_singleton.1 hmem ▸ h.launched slot cell howns.1
    · exact h.cancelled
  owner := by
    rw [launched_cancelTimer]
    exact h.owner
  slot c task := by
    rw [h.armed_cancelTimer_iff, timer?_cancelTimer, ← h.slot]
    split
    · rename_i hcell
      exact iff_of_false nofun fun hne => hne.1 hcell
    · rename_i hcell
      exact (and_iff_right hcell).symm

theorem timer?_armTimer {c : Cell K} (hc : w.cell? cell = some c) (id : CellId) :
    (w.armTimer cell).timer? id =
      if cell = id then some w.nextTask else w.timer? id := by
  have hcell : ((w.cancelTimer cell).cell? cell).isSome := by
    have hkind := isMini?_cancelTimer w cell cell
    rw [isMini?, isMini?, hc] at hkind
    rw [← Option.isSome_map, hkind]
    rfl
  show ((w.cancelTimer cell).modifyCell cell fun c =>
    { c with timer := some (w.cancelTimer cell).nextTask }).timer? id = _
  rw [timer?_modifyCell, nextTask_cancelTimer]
  split
  · subst cell
    obtain ⟨d, hd⟩ := Option.isSome_iff_exists.1 hcell
    rw [hd]
    rfl
  · rename_i hne
    rw [timer?_cancelTimer, if_neg hne]

theorem Wound.armed_armTimer_iff (h : w.Wound) :
    (w.armTimer cell).Armed id task ↔
      (w.cancelTimer cell).Armed id task ∨ task = w.nextTask ∧ id = cell := by
  have hfresh : w.nextTask ∉ (w.cancelTimer cell).cancelled := fun hmem =>
    Nat.lt_irrefl _ (nextTask_cancelTimer w cell ▸ h.cancelTimer.cancelled _ hmem)
  have hlaunched : (task, id) ∈ (w.armTimer cell).launched ↔
      (task, id) ∈ (w.cancelTimer cell).launched ∨ task = w.nextTask ∧ id = cell := by
    show (task, id) ∈ (w.cancelTimer cell).launched ++ [((w.cancelTimer cell).nextTask, cell)] ↔ _
    rw [List.mem_append, List.mem_singleton, Prod.mk.injEq, nextTask_cancelTimer]
  show _ ∧ task ∉ (w.cancelTimer cell).cancelled ↔ _
  rw [hlaunched, or_and_right]
  refine or_congr_right ⟨fun hnew => hnew.1, fun hnew => ⟨hnew, ?_⟩⟩
  rw [hnew.1]
  exact hfresh

theorem Wound.armTimer {c : Cell K} (h : w.Wound) (hc : w.cell? cell = some c) :
    (w.armTimer cell).Wound := by
  have hcancel : (w.cancelTimer cell).Wound := h.cancelTimer
  have hnext : (w.armTimer cell).nextTask = w.nextTask + 1 :=
    congrArg (· + 1) (nextTask_cancelTimer w cell)
  have hlaunched : (w.armTimer cell).launched = w.launched ++ [(w.nextTask, cell)] := by
    show (w.cancelTimer cell).launched ++ [((w.cancelTimer cell).nextTask, cell)] = _
    rw [launched_cancelTimer, nextTask_cancelTimer]
  refine ⟨fun task id hmem => ?_, fun task hmem => ?_, fun task id id' hid hid' => ?_,
    fun id task => ?_⟩
  · rw [hlaunched] at hmem
    rw [hnext]
    rcases List.mem_append.1 hmem with hmem | hmem
    · exact Nat.lt_succ_of_lt (h.launched task id hmem)
    · cases List.mem_singleton.1 hmem
      exact Nat.lt_succ_self _
  · rw [hnext]
    have hlt := hcancel.cancelled task hmem
    rw [nextTask_cancelTimer] at hlt
    exact Nat.lt_succ_of_lt hlt
  · rw [hlaunched, List.mem_append, List.mem_singleton, Prod.mk.injEq] at hid hid'
    rcases hid with hid | ⟨htask, rfl⟩ <;> rcases hid' with hid' | ⟨htask', rfl⟩
    · exact h.owner task id id' hid hid'
    · exact absurd (h.launched task id hid) (htask' ▸ Nat.lt_irrefl _)
    · exact absurd (h.launched task id' hid') (htask ▸ Nat.lt_irrefl _)
    · rfl
  · rw [timer?_armTimer hc, h.armed_armTimer_iff, h.armed_cancelTimer_iff, ← h.slot]
    split
    · rename_i hcell
      subst cell
      simp [eq_comm]
    · rename_i hcell
      simp [hcell, Ne.symm hcell]

structure Upholds (id : CellId) (v w : World K) : Prop where
  wound : v.Wound → w.Wound
  rotates : ∀ b, v.rotates? id = some b → w.rotates? id = some b

theorem Upholds.refl (id : CellId) (w : World K) : Upholds id w w := ⟨fun h => h, fun _ h => h⟩

theorem Upholds.trans (huv : Upholds id u v) (hvw : Upholds id v w) : Upholds id u w :=
  ⟨fun h => hvw.wound (huv.wound h), fun b h => hvw.rotates b (huv.rotates b h)⟩

theorem Idles.upholds (h : Idles v w) : Upholds id v w := ⟨h.wound, h.rotates id⟩

theorem rotates?_cancelTimer (w : World K) (cell id : CellId) :
    (w.cancelTimer cell).rotates? id = w.rotates? id := by
  unfold cancelTimer
  split
  · exact rotates?_modifyCell fun _ => rfl
  · rfl

theorem upholds_cancelTimer (w : World K) (cell : CellId) : Upholds id w (w.cancelTimer cell) :=
  ⟨fun h => h.cancelTimer, fun _ h => (rotates?_cancelTimer w cell id).trans h⟩

theorem rotates?_armTimer (w : World K) (cell id : CellId) :
    (w.armTimer cell).rotates? id = w.rotates? id := by
  have harm : ((w.cancelTimer cell).modifyCell cell fun c =>
      { c with timer := some (w.cancelTimer cell).nextTask }).rotates? id =
        (w.cancelTimer cell).rotates? id := rotates?_modifyCell fun _ => rfl
  exact harm.trans (rotates?_cancelTimer w cell id)

end World

namespace Cell

open World

variable {w : World K} {id cell : CellId}

theorem idles_endBuild (scope : Scope) (ending : Ending) (report : Report) (previous : Status)
    (w : World K) : Idles w (endBuild cell scope ending report previous w) := by
  unfold endBuild
  split
  · exact .refl w
  · exact ((idles_restand cell (·.endBuild report scope.disabled) w).trans (idles_report _ _)).trans
      (idles_publish _ _)

theorem idles_endDestroy (ending : Ending) (w : World K) :
    Idles w (endDestroy cell ending w) := by
  unfold endDestroy
  split
  · exact .refl w
  · refine ((idles_restand cell Standing.endDestroy w).trans ?_).trans
      ((idles_report _ _).trans (idles_publish _ _))
    split
    · exact idles_report _ _
    · exact .refl _

theorem idles_assign (status : Status) (w : World K) : Idles w (assign cell status w) := by
  unfold assign
  split
  · exact .refl w
  · refine ((idles_restand cell (·.assign status) w).trans ?_).trans (idles_publish _ _)
    split
    · exact .refl _
    · exact idles_report _ _

theorem upholds_armAfter (report : Report) (w : World K) :
    Upholds id w (armAfter cell report w) := by
  unfold armAfter
  split
  · rename_i c hc
    split
    · exact ⟨fun h => h.armTimer hc, fun _ h => (rotates?_armTimer w cell id).trans h⟩
    · exact .refl id w
  · exact .refl id w

end Cell

namespace Rotation

open World

variable {cell : CellId}

theorem idles_adopt (store : Status) (w : World K) : Idles w (adopt cell store w) := by
  unfold adopt
  split
  · exact .refl w
  · exact ((idles_restand cell (·.assign store) w).trans (idles_report _ _)).trans
      (idles_publish _ _)

theorem idles_settle (finish : Finish) (name : String) (w : World K) :
    Idles w (finish.settle cell name w) := by
  cases finish with
  | granted credential attempts =>
    show Idles w (install cell attempts w)
    unfold install
    split
    · exact .refl w
    · have h (notice : Notice) (e : Event) : Idles w (((w.modifyCell cell fun c =>
          { c with standing := c.standing.assign .available }).report notice).publish cell e) :=
        ((idles_restand cell (·.assign .available) w).trans (idles_report _ _)).trans
          (idles_publish _ e)
      dsimp only
      split
      · exact h _ _
      · exact (h _ _).trans (idles_publish _ _)
  | exhausted attempts message =>
    show Idles w (giveUp cell attempts message w)
    unfold giveUp
    split
    · exact .refl w
    · exact (idles_report _ _).trans (idles_publish _ _)
  | failed attempts message => exact idles_report w _
  | overflowed => exact .refl w
  | panicked => exact .refl w

end Rotation

namespace Cell

open World

variable {w : World K} {id cell : CellId} {ρ : Type}

def upholding (id : CellId) : Terms K where
  others := Upholds id
  own := Upholds id
  may := fun _ _ => True
  mayExit := False
  others_refl := .refl id
  others_trans := .trans
  own_of_others h := h
  own_trans := .trans

theorem lends_upholding : Lends (upholding (K := K) id) where
  note v line := (idles_note v line).upholds
  report v notice := (idles_report v notice).upholds
  mini _ _ _ := trivial
  putBack {_ w cell _ inner} _ _ _ := by
    have hput : Idles w (w.modifyCell cell fun c => { c with inner }) :=
      idles_modifyCell (fun _ => rfl) fun _ => rfl
    exact hput.upholds

theorem upholds_buildWith {run : CellId → Scope → Action K (Scope × Ending)}
    (during : List Invocation → Prop) (token : Token)
    (hrun : ∀ scope v, Meets (upholding id) (run cell scope)
      (fun calls _ _ => during (ofMembers calls)) v) :
    Meets (upholding id) (buildWith run cell token)
      (fun calls _ _ => during (ofMembers calls)) w := by
  refine Meets.get fun _ _ => Meets.acquire (Meets.get fun _ _ => Meets.getModify fun v _ => ?_)
  refine ⟨(idles_restand cell Standing.beginBuild v).upholds, Meets.seq (hrun _ _) ?_⟩
  rintro before ⟨asked, ending⟩ _ - hbefore
  refine Meets.get fun _ _ => Meets.modify fun x _ => ⟨(idles_endBuild _ _ _ _ x).upholds, ?_⟩
  refine Meets.release (Meets.modify fun y _ => ⟨upholds_armAfter _ y, ?_⟩)
  have hend (answer : Except Fault Report) (z : World K) :
      Meets (upholding id) (Pure.pure answer : Action K _)
        (fun after _ _ => during (ofMembers (before ++ after))) z :=
    Meets.pure fun _ _ => by rwa [List.append_nil]
  exact Meets.ite (fun _ => hend _ _) fun _ => hend _ _

theorem upholds_destroyWith {hook : CellId → Action K Ending} (during : List Invocation → Prop)
    (hnone : during [])
    (hhook : ∀ v, Meets (upholding id) (hook cell)
      (fun calls _ _ => during (ofMembers calls)) v) :
    Meets (upholding id) (destroyWith hook cell)
      (fun calls _ _ => during (ofMembers calls)) w := by
  refine Meets.modify fun v _ => ⟨upholds_cancelTimer v cell, Meets.acquire ?_⟩
  refine Meets.get fun x _ => ?_
  split
  · split
    · exact Meets.report fun y _ => ⟨(idles_report y _).upholds, Meets.release
        (Meets.pure fun _ _ => hnone)⟩
    · refine Meets.modify fun y _ => ⟨(idles_restand cell Standing.beginDestroy y).upholds, ?_⟩
      refine Meets.seq (hhook _) fun before ending _ _ hbefore => ?_
      refine Meets.modify fun z _ => ⟨(idles_endDestroy ending z).upholds, Meets.release ?_⟩
      exact Meets.pure fun _ _ => by rwa [List.append_nil]
  · exact Meets.pure fun _ _ => hnone

theorem upholds_carryPool (call : PoolHook.Call K.Mini) :
    Quiet (upholding id) (carryPool call) w := by
  cases call with
  | plain call => exact quiet_carry lends_upholding call
  | report notice => exact quiet_report lends_upholding notice
  | enroll name mini =>
    exact Meets.of_bind_pure (Meets.getModify fun v _ =>
      ⟨(idles_addCell rfl).upholds, Quiet.pure _⟩)
  | build cell token =>
    refine Meets.get fun v _ => Quiet.ite (fun _ => ?_) fun _ => Quiet.pure _
    exact upholds_buildWith (· = []) token fun scope v => quiet_passMini lends_upholding scope
  | destroy cell =>
    refine Meets.get fun v _ => Quiet.ite (fun _ => ?_) fun _ => Quiet.pure _
    exact upholds_destroyWith (· = []) rfl fun v => quiet_tearMini lends_upholding

theorem winds_upholding : Rotation.Winds (upholding (K := K) id) cell where
  lends := lends_upholding
  adopt store v := (Rotation.idles_adopt store v).upholds
  settle finish name v := (Rotation.idles_settle finish name v).upholds

theorem upholds_enter (method : String) :
    Meets (upholding id) (enter cell method) (fun _ _ _ => True) w := by
  refine Meets.acquire (Meets.get fun v _ => ?_)
  split
  · exact Meets.release (Meets.pure fun _ _ => trivial)
  · split
    · exact Meets.pure fun _ _ => trivial
    · exact Meets.release (Meets.pure fun _ _ => trivial)

theorem upholds_run (r : Request K ρ) :
    Meets (upholding id) (r.run cell) (fun _ _ _ => True) w := by
  cases r with
  | build token =>
    exact upholds_buildWith (fun _ => True) token fun scope v =>
      (meets_pass_of lends_upholding scope (fun _ _ => trivial) fun _ _ _ call _ _ =>
        upholds_carryPool call).mono fun _ _ _ _ => trivial
  | destroy =>
    exact upholds_destroyWith (fun _ => True) trivial fun v =>
      (meets_tear_of lends_upholding (fun _ _ => trivial) fun _ _ _ call _ _ =>
        upholds_carryPool call).mono fun _ _ _ _ => trivial
  | setStatus status =>
    exact Meets.acquire (Meets.modify fun v _ =>
      ⟨(idles_assign status v).upholds, Meets.release (Meets.pure fun _ _ => trivial)⟩)
  | rotate => exact (Rotation.quiet_tick winds_upholding).mono fun _ _ _ _ => trivial
  | call method body =>
    refine Meets.seq (upholds_enter method) fun _ entered v _ _ => ?_
    cases entered with
    | error refusal => exact Meets.pure fun _ _ => trivial
    | ok c =>
      have hbody : Quiet (upholding id) ((body c).interpret carry) v :=
        .interpret _ fun call _ _ => quiet_carry lends_upholding call
      exact Meets.seq hbody fun _ _ _ _ _ => Meets.release (Meets.pure fun _ _ => trivial)
  | status =>
    show Meets _ (status cell) _ w
    exact (quiet_reading _).mono fun _ _ _ _ => trivial
  | look =>
    show Meets _ (look cell) _ w
    exact (quiet_reading _).mono fun _ _ _ _ => trivial

theorem upholds_requests (p : Program (Request.Answer (K := K) (ρ := ρ)) α) :
    Meets (upholding id) (p.interpret (Request.run cell)) (fun _ _ _ => True) w := by
  induction p generalizing w with
  | done a => exact Meets.pure fun _ _ => trivial
  | call r next ih => exact Meets.seq (upholds_run r) fun _ a _ _ _ => ih a

end Cell

end Steward
