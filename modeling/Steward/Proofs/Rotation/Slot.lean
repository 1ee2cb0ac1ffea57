import Steward.Proofs.Cell.Request
/-!
The slot of a cell that its timer is kept in. A timer that was launched for the cell and not
cancelled is in the slot, so there is never more than one of them. Only two changes of the world
touch the slot: a teardown empties it, and a usable build pass puts a new timer there. All else
that is asked of cells leaves it alone, whatever the hooks do, for these come to no other cells than
those of mini-services.
-/
namespace Steward

open Steward.Action

variable {K : Kit} {α β ρ : Type}

namespace World

variable {u v w : World K} {id cell : CellId} {task : TaskId}

def timer? (w : World K) (id : CellId) : Option TaskId := (w.cell? id).bind (·.timer)

def isMini? (w : World K) (id : CellId) : Option Bool := (w.cell? id).map Cell.isMini

/-- A timer was launched for a cell, and was not cancelled. -/
def Armed (w : World K) (id : CellId) (task : TaskId) : Prop :=
  (task, id) ∈ w.launched ∧ task ∉ w.cancelled

/-- The timer of a cell that is armed is in the slot of the cell. -/
def Slots (w : World K) (id : CellId) : Prop := ∀ task, w.Armed id task → w.timer? id = some task

theorem slots_of_forall_notMem (h : ∀ task, (task, id) ∉ w.launched) : w.Slots id :=
  fun task harmed => absurd harmed.1 (h task)

/-- A change leaves the timer of a cell alone, and the kind of what the cell holds. -/
structure LeavesTimer (id : CellId) (v w : World K) : Prop where
  isMini : w.isMini? id = v.isMini? id
  timer : w.timer? id = v.timer? id
  launched : ∀ task, (task, id) ∈ w.launched → (task, id) ∈ v.launched
  cancelled : v.cancelled ⊆ w.cancelled

theorem LeavesTimer.refl (id : CellId) (w : World K) : LeavesTimer id w w :=
  ⟨rfl, rfl, fun _ h => h, fun _ h => h⟩

theorem LeavesTimer.trans (huv : LeavesTimer id u v) (hvw : LeavesTimer id v w) :
    LeavesTimer id u w where
  isMini := hvw.isMini.trans huv.isMini
  timer := hvw.timer.trans huv.timer
  launched task h := huv.launched task (hvw.launched task h)
  cancelled _ h := hvw.cancelled (huv.cancelled h)

theorem LeavesTimer.armed (h : LeavesTimer id v w) (harmed : w.Armed id task) : v.Armed id task :=
  ⟨h.launched task harmed.1, fun hcancelled => harmed.2 (h.cancelled hcancelled)⟩

theorem LeavesTimer.slots (h : LeavesTimer id v w) (hv : v.Slots id) : w.Slots id :=
  fun task harmed => h.timer.trans (hv task (h.armed harmed))

theorem leavesTimer_of_eq (hcells : w.cells = v.cells) (hlaunched : w.launched = v.launched)
    (hcancelled : w.cancelled = v.cancelled) : LeavesTimer id v w where
  isMini := by rw [isMini?, isMini?, cell?, cell?, hcells]
  timer := by rw [timer?, timer?, cell?, cell?, hcells]
  launched _ h := hlaunched ▸ h
  cancelled _ h := hcancelled ▸ h

theorem leavesTimer_note (w : World K) (line : String) : LeavesTimer id w (w.note line) :=
  leavesTimer_of_eq rfl rfl rfl

theorem leavesTimer_report (w : World K) (notice : Notice) : LeavesTimer id w (w.report notice) :=
  leavesTimer_of_eq rfl rfl rfl

theorem leavesTimer_publish (w : World K) (e : Event) : LeavesTimer id w (w.publish cell e) := by
  unfold publish
  split
  · split
    · split
      · exact leavesTimer_of_eq rfl rfl rfl
      · exact leavesTimer_report w _
    · exact .refl id w
  · exact .refl id w

theorem leavesTimer_modifyCell {f : Cell K → Cell K}
    (h : cell = id → ∀ c, w.cell? id = some c → (f c).isMini = c.isMini ∧ (f c).timer = c.timer) :
    LeavesTimer id w (w.modifyCell cell f) := by
  have hsame : (w.modifyCell cell f).isMini? id = w.isMini? id ∧
      (w.modifyCell cell f).timer? id = w.timer? id := by
    rw [isMini?, timer?, cell?_modifyCell]
    split
    · rename_i hcell
      cases hc : w.cell? id with
      | none => simp [isMini?, timer?, hc]
      | some c => simp [isMini?, timer?, hc, h hcell c hc]
    · exact ⟨rfl, rfl⟩
  exact ⟨hsame.1, hsame.2, fun _ h => h, fun _ h => h⟩

theorem leavesTimer_restand (cell : CellId) (f : Standing → Standing) (w : World K) :
    LeavesTimer id w (w.modifyCell cell fun c => { c with standing := f c.standing }) :=
  leavesTimer_modifyCell fun _ _ _ => ⟨rfl, rfl⟩

theorem leavesTimer_addCell (c : Cell K) (hid : (w.isMini? id).isSome = true) :
    LeavesTimer id w (w.addCell c) := by
  have hcell : (w.addCell c).cell? id = w.cell? id := by
    obtain ⟨d, hd⟩ := Option.isSome_iff_exists.1 (by rwa [isMini?, Option.isSome_map] at hid)
    have hlt : id < w.cells.size := (Array.getElem?_eq_some_iff.1 hd).1
    rw [cell?, addCell, Array.getElem?_push_lt hlt, cell?, Array.getElem?_eq_getElem hlt]
  exact ⟨congrArg _ hcell, congrArg (·.bind (·.timer)) hcell, fun _ h => h, fun _ h => h⟩

theorem leavesTimer_cancelTimer (hne : cell ≠ id) : LeavesTimer id w (w.cancelTimer cell) := by
  unfold cancelTimer
  split
  · have h : LeavesTimer id w (w.modifyCell cell fun c => { c with timer := none }) :=
      leavesTimer_modifyCell fun heq => absurd heq hne
    exact ⟨h.isMini, h.timer, h.launched, List.subset_append_left _ _⟩
  · exact .refl id w

theorem leavesTimer_armTimer (hne : cell ≠ id) : LeavesTimer id w (w.armTimer cell) := by
  have harm : LeavesTimer id (w.cancelTimer cell) ((w.cancelTimer cell).modifyCell cell fun c =>
      { c with timer := some (w.cancelTimer cell).nextTask }) :=
    leavesTimer_modifyCell fun heq => absurd heq hne
  have h : LeavesTimer id w _ := (leavesTimer_cancelTimer hne).trans harm
  refine ⟨h.isMini, h.timer, fun task hlaunched => h.launched task ?_, h.cancelled⟩
  rcases List.mem_append.1 hlaunched with hbefore | hnew
  · exact hbefore
  · exact absurd (congrArg Prod.snd (List.mem_singleton.1 hnew)).symm hne

theorem launched_cancelTimer (w : World K) (id : CellId) :
    (w.cancelTimer id).launched = w.launched := by
  unfold cancelTimer
  split <;> rfl

theorem isMini?_cancelTimer (w : World K) (cell id : CellId) :
    (w.cancelTimer cell).isMini? id = w.isMini? id := by
  unfold cancelTimer
  split
  · by_cases hcell : cell = id
    · subst hcell
      show ((w.modifyCell cell _).cell? cell).map Cell.isMini = _
      rw [cell?_modifyCell, if_pos rfl, Option.map_map]
      rfl
    · exact (leavesTimer_modifyCell fun heq => absurd heq hcell).isMini
  · rfl

theorem isMini?_armTimer (w : World K) (cell id : CellId) :
    (w.armTimer cell).isMini? id = w.isMini? id := by
  rw [← isMini?_cancelTimer w cell id]
  by_cases hcell : cell = id
  · subst hcell
    show (((w.cancelTimer cell).modifyCell cell _).cell? cell).map Cell.isMini = _
    rw [cell?_modifyCell, if_pos rfl, Option.map_map]
    rfl
  · exact (leavesTimer_modifyCell (w := w.cancelTimer cell) fun heq => absurd heq hcell).isMini

theorem Slots.not_armed_cancelTimer (h : w.Slots id) : ¬ (w.cancelTimer id).Armed id task := by
  rintro ⟨hlaunched, hcancelled⟩
  rw [launched_cancelTimer] at hlaunched
  unfold cancelTimer at hcancelled
  split at hcancelled
  · rename_i slot hslot
    have hstill : task ∉ w.cancelled := fun hmem =>
      hcancelled (List.mem_append_left _ hmem)
    obtain rfl : slot = task := Option.some.inj (hslot.symm.trans (h task ⟨hlaunched, hstill⟩))
    exact hcancelled (List.mem_append_right _ (List.mem_singleton_self slot))
  · rename_i hslot
    cases hslot.symm.trans (h task ⟨hlaunched, hcancelled⟩)

theorem Slots.cancelTimer (h : w.Slots id) : (w.cancelTimer id).Slots id :=
  fun _ harmed => absurd harmed h.not_armed_cancelTimer

theorem Slots.armTimer (h : w.Slots id) (hid : (w.isMini? id).isSome = true) :
    (w.armTimer id).Slots id := by
  intro task ⟨hlaunched, hcancelled⟩
  have htask : task = (w.cancelTimer id).nextTask := by
    rcases List.mem_append.1 hlaunched with hbefore | hnew
    · exact absurd ⟨hbefore, hcancelled⟩ h.not_armed_cancelTimer
    · exact congrArg Prod.fst (List.mem_singleton.1 hnew)
  obtain ⟨c, hc⟩ : ∃ c, (w.cancelTimer id).cell? id = some c := by
    rw [← isMini?_cancelTimer w id id, isMini?, Option.isSome_map] at hid
    exact Option.isSome_iff_exists.1 hid
  show (((w.cancelTimer id).modifyCell id _).cell? id).bind _ = _
  rw [cell?_modifyCell, if_pos rfl, hc, htask]
  rfl

end World

open World

/-- A program leaves the timer of a cell alone, whatever world it finds in which the cell holds what
it always does, and its answer is as `post` says. -/
def Aloof (id : CellId) (isMini : Bool) : Action K α → (α → Prop) → Prop
  | .done a, post => post a
  | .call (.update f) next, post => ∀ w : World K, w.isMini? id = some isMini →
    LeavesTimer id w (f w) ∧ Aloof id isMini (next w) post
  | .call (.invoke _) next, post => ∀ w : World K, w.isMini? id = some isMini →
    Aloof id isMini (next w) post
  | .call (.acquire _ _) next, post => Aloof id isMini (next ()) post
  | .call (.release _) next, post => Aloof id isMini (next ()) post
  | .call (.rest _) next, post => Aloof id isMini (next ()) post
  | .call (.restUnlessCancelled _) next, post =>
    ∀ isCancelled, Aloof id isMini (next isCancelled) post
  | .call (.exit _) _, _ => True

section Aloof

variable {id cell : CellId} {isMini : Bool} {p : Action K α} {mid : α → Prop} {post : β → Prop}
  {f : World K → α} {g : α → Action K β} {change : World K → World K}
  {next : Unit → Action K β}

theorem Aloof.seq (h : Aloof id isMini p mid) (hg : ∀ a, mid a → Aloof id isMini (g a) post) :
    Aloof id isMini (p >>= g) post := by
  induction p with
  | done a => exact hg a h
  | call effect next ih =>
    cases effect with
    | update f => exact fun w hw => ⟨(h w hw).1, ih w (h w hw).2⟩
    | invoke what => exact fun w hw => ih w (h w hw)
    | acquire cell access => exact ih () h
    | release cell => exact ih () h
    | rest millis => exact ih () h
    | restUnlessCancelled millis => exact fun b => ih b (h b)
    | exit code => trivial

theorem Aloof.pure {b : β} (h : post b) : Aloof id isMini (Pure.pure b : Action K β) post := h

theorem Aloof.get (h : ∀ w : World K, w.isMini? id = some isMini → Aloof id isMini (g (f w)) post) :
    Aloof id isMini (Action.get f >>= g) post := fun w hw => ⟨.refl id w, h w hw⟩

theorem Aloof.getModify
    (hchange : ∀ w : World K, w.isMini? id = some isMini → LeavesTimer id w (change w))
    (h : ∀ a, Aloof id isMini (g a) post) :
    Aloof id isMini (Action.getModify f change >>= g) post := fun w hw => ⟨hchange w hw, h (f w)⟩

theorem Aloof.modify
    (hchange : ∀ w : World K, w.isMini? id = some isMini → LeavesTimer id w (change w))
    (h : Aloof id isMini (next ()) post) : Aloof id isMini (Action.modify change >>= next) post :=
  fun w hw => ⟨hchange w hw, h⟩

theorem Aloof.invoke {what : Invocation} (h : Aloof id isMini (next ()) post) :
    Aloof id isMini (Action.invoke what (fun _ => ()) >>= next) post := fun _ _ => h

theorem Aloof.acquire {access : Access} (h : Aloof id isMini (next ()) post) :
    Aloof id isMini (Action.acquire cell access >>= next) post := h

theorem Aloof.release (h : Aloof id isMini (next ()) post) :
    Aloof id isMini (Action.release cell >>= next) post := h

theorem Aloof.rest {millis : Nat} (h : Aloof id isMini (next ()) post) :
    Aloof id isMini (Action.rest millis >>= next) post := h

theorem Aloof.ite {b : Prop} [Decidable b] {q : Action K β} {q' : Action K β}
    (hq : b → Aloof id isMini q post) (hq' : ¬ b → Aloof id isMini q' post) :
    Aloof id isMini (if b then q else q') post := by
  split
  · exact hq ‹_›
  · exact hq' ‹_›

abbrev LeavesAlone (id : CellId) (isMini : Bool) (p : Action K α) : Prop :=
  Aloof id isMini p fun _ => True

theorem Aloof.interpret {ι : Type} {Answer : ι → Type} {carry : (i : ι) → Action K (Answer i)}
    (h : ∀ i, LeavesAlone id isMini (carry i)) (hook : Program Answer α) :
    LeavesAlone id isMini (hook.interpret carry) := by
  induction hook with
  | done a => exact .pure trivial
  | call i next ih => exact .seq (h i) fun a _ => ih a

theorem leavesAlone_modify
    (h : ∀ w : World K, w.isMini? id = some isMini → LeavesTimer id w (change w)) :
    LeavesAlone id isMini (Action.modify change) := fun w hw => ⟨h w hw, trivial⟩

theorem leavesAlone_report (notice : Notice) :
    LeavesAlone id isMini (Action.report notice : Action K Unit) :=
  leavesAlone_modify fun w _ => leavesTimer_report w notice

theorem leavesAlone_reading (f : Option (Cell K) → α) :
    LeavesAlone id isMini (reading cell f) :=
  .acquire (.get fun _ _ => .release (.pure trivial))

end Aloof

namespace Cell

variable {id cell : CellId} {isMini : Bool}

theorem leavesTimer_endBuild (scope : Scope) (ending : Ending) (report : Report)
    (previous : Status) (w : World K) :
    LeavesTimer id w (endBuild cell scope ending report previous w) := by
  unfold endBuild
  split
  · exact .refl id w
  · exact ((leavesTimer_restand cell (·.endBuild report scope.disabled) w).trans
      (leavesTimer_report _ _)).trans (leavesTimer_publish _ _)

theorem leavesTimer_armAfter (hne : cell ≠ id) (report : Report) (w : World K) :
    LeavesTimer id w (armAfter cell report w) := by
  unfold armAfter
  split
  · split
    · exact leavesTimer_armTimer hne
    · exact .refl id w
  · exact .refl id w

theorem leavesTimer_endDestroy (ending : Ending) (w : World K) :
    LeavesTimer id w (endDestroy cell ending w) := by
  unfold endDestroy
  split
  · exact .refl id w
  · refine ((leavesTimer_restand cell Standing.endDestroy w).trans ?_).trans
      ((leavesTimer_report _ _).trans (leavesTimer_publish _ _))
    split
    · exact leavesTimer_report _ _
    · exact .refl id _

theorem leavesTimer_assign (status : Status) (w : World K) :
    LeavesTimer id w (assign cell status w) := by
  unfold assign
  split
  · exact .refl id w
  · refine ((leavesTimer_restand cell (·.assign status) w).trans ?_).trans
      (leavesTimer_publish _ _)
    split
    · exact .refl id _
    · exact leavesTimer_report _ _

theorem leavesAlone_carry (call : Hook.Call) :
    LeavesAlone id isMini (carry call : Action K call.Answer) := by
  cases call with
  | note line => exact leavesAlone_modify fun w _ => leavesTimer_note w line
  | rest millis => trivial
  | statusOf other =>
    show LeavesAlone id isMini (status other)
    exact leavesAlone_reading _
  | clock => exact fun w _ => ⟨.refl id w, trivial⟩

theorem leavesTimer_putBack {w : World K} {inner : Inner K} (hw : w.isMini? id = some isMini)
    (hinner : cell = id → ∀ c : Cell K, ({ c with inner } : Cell K).isMini = isMini) :
    LeavesTimer id w (w.modifyCell cell fun c => { c with inner }) := by
  refine leavesTimer_modifyCell fun hcell c hc => ⟨(hinner hcell c).trans ?_, rfl⟩
  rw [isMini?, hc, Option.map_some] at hw
  exact (Option.some.inj hw).symm

theorem isMini_of_mini {w : World K} {m : K.Mini} (hw : w.isMini? id = some isMini)
    (hm : (w.cell? cell).map (·.inner) = some (.mini m)) (hcell : cell = id) : isMini = true := by
  obtain ⟨c, hc, hinner⟩ := Option.map_eq_some_iff.1 hm
  rw [isMini?, ← hcell, hc, Option.map_some, Cell.isMini, hinner] at hw
  exact (Option.some.inj hw).symm

theorem isMini_of_service {w : World K} {s : K.Service} (hw : w.isMini? id = some isMini)
    (hs : (w.cell? id).map (·.inner) = some (.service s)) : isMini = false := by
  obtain ⟨c, hc, hinner⟩ := Option.map_eq_some_iff.1 hs
  rw [isMini?, hc, Option.map_some, Cell.isMini, hinner] at hw
  exact (Option.some.inj hw).symm

theorem leavesAlone_hook {ι : Type} {Answer : ι → Type} {carry : (i : ι) → Action K (Answer i)}
    (hcarry : ∀ i, LeavesAlone id isMini (carry i)) (what : Invocation) (hook : Program Answer α)
    (inner : α → Inner K) (answer : α → β)
    (hinner : cell = id → ∀ a (c : Cell K),
      ({ c with inner := inner a } : Cell K).isMini = isMini) :
    LeavesAlone id isMini (do
      invoke what fun _ => ()
      let a ← hook.interpret carry
      putBack cell (inner a)
      return answer a) :=
  .invoke (.seq (.interpret hcarry hook) fun a _ =>
    .modify (fun _ hw => leavesTimer_putBack hw fun hcell => hinner hcell a) (.pure trivial))

theorem leavesAlone_passMini (scope : Scope) :
    LeavesAlone id isMini (passMini cell scope : Action K _) := by
  refine .get fun w hw => ?_
  split
  · rename_i m hm
    exact leavesAlone_hook leavesAlone_carry _ _ _ _ fun hcell _ _ =>
      (isMini_of_mini hw hm hcell).symm
  · exact .pure trivial

theorem leavesAlone_tearMini : LeavesAlone id isMini (tearMini cell : Action K Ending) := by
  refine .get fun w hw => ?_
  split
  · rename_i m hm
    exact leavesAlone_hook leavesAlone_carry _ _ _ _ fun hcell _ _ =>
      (isMini_of_mini hw hm hcell).symm
  · exact .pure trivial

def Tallies (done : (String × Report) × Deed) : Prop :=
  ∃ asked ending, done.2 = .built asked ending ∧ done.1.2.outcome = ending.outcome

theorem aloof_buildHeld {run : CellId → Scope → Action K (Scope × Ending)}
    (hrun : ∀ scope, LeavesAlone id isMini (run cell scope)) (token : Token) (started : Nat) :
    Aloof id isMini (buildHeld run cell token started) Tallies := by
  refine .get fun _ _ => .getModify (fun w _ => leavesTimer_restand cell Standing.beginBuild w)
    fun name => .seq (hrun _) fun (asked, ending) _ => .get fun _ _ => ?_
  exact .modify (fun w _ => leavesTimer_endBuild _ _ _ _ w) (.pure ⟨_, ending, rfl, rfl⟩)

theorem leavesAlone_buildWith {run : CellId → Scope → Action K (Scope × Ending)}
    (hne : cell ≠ id) (hrun : ∀ scope, LeavesAlone id isMini (run cell scope)) (token : Token) :
    LeavesAlone id isMini (buildWith run cell token) := by
  rw [buildWith_eq]
  refine .get fun _ _ => .acquire (.seq (aloof_buildHeld hrun token _) fun (done, _) _ => ?_)
  exact .release (.modify (fun w _ => leavesTimer_armAfter hne done.2 w)
    (.ite (fun _ => .pure trivial) fun _ => .pure trivial))

theorem aloof_destroyHeld {hook : CellId → Action K Ending}
    (hhook : LeavesAlone id isMini (hook cell)) (c : Cell K) :
    Aloof id isMini (destroyHeld hook cell c) fun deed => deed = .nothing ∨ deed = .destroyed := by
  refine .ite (fun _ => ?_) fun _ => ?_
  · exact .seq (leavesAlone_report _) fun _ _ => .pure (.inl rfl)
  · refine .modify (fun w _ => leavesTimer_restand cell Standing.beginDestroy w) ?_
    refine .seq hhook fun _ _ => ?_
    exact .modify (fun w _ => leavesTimer_endDestroy _ w) (.pure (.inr rfl))

theorem leavesAlone_destroyWith {hook : CellId → Action K Ending} (hne : cell ≠ id)
    (hhook : LeavesAlone id isMini (hook cell)) :
    LeavesAlone id isMini (destroyWith hook cell) := by
  rw [destroyWith_eq]
  refine .modify (fun w _ => leavesTimer_cancelTimer hne) (.acquire (.get fun w _ => ?_))
  split
  · exact .seq (aloof_destroyHeld hhook _) fun _ _ => .release (.pure trivial)
  · exact .pure trivial

theorem leavesAlone_carryPool (hservice : isMini = false) (call : PoolHook.Call K.Mini) :
    LeavesAlone id isMini (carryPool call : Action K call.Answer) := by
  have hne {w : World K} (hw : w.isMini? id = some isMini) {other : CellId}
      (hmini : w.holdsMini other = true) : other ≠ id := by
    rintro rfl
    obtain ⟨c, hc, hkind⟩ := Option.map_eq_some_iff.1 hw
    simp [holdsMini, hc, hkind, hservice] at hmini
  cases call with
  | plain call => exact leavesAlone_carry call
  | report notice => exact leavesAlone_report notice
  | enroll name mini =>
    exact fun w hw => ⟨leavesTimer_addCell _ (by rw [hw, Option.isSome_some]), trivial⟩
  | build other token =>
    refine .get fun w hw => .ite (fun hmini => ?_) fun _ => .pure trivial
    exact leavesAlone_buildWith (hne hw hmini) leavesAlone_passMini token
  | destroy other =>
    refine .get fun w hw => .ite (fun hmini => ?_) fun _ => .pure trivial
    exact leavesAlone_destroyWith (hne hw hmini) leavesAlone_tearMini

theorem leavesAlone_poolHook {w : World K} {s : K.Service} (hw : w.isMini? id = some isMini)
    (hs : (w.cell? id).map (·.inner) = some (.service s)) (what : Invocation)
    (hook : PoolHook K.Mini α) (inner : α → K.Service) (answer : α → β) :
    LeavesAlone id isMini (do
      invoke what fun _ => ()
      let a ← hook.interpret carryPool
      putBack id (.service (inner a))
      return answer a) := by
  have hservice := isMini_of_service hw hs
  exact leavesAlone_hook (leavesAlone_carryPool hservice) _ _ _ _ fun _ _ _ => hservice.symm

theorem leavesAlone_pass (scope : Scope) : LeavesAlone id isMini (pass id scope : Action K _) := by
  refine .get fun w hw => ?_
  split
  · rename_i s hs
    exact leavesAlone_poolHook hw hs _ _ _ _
  · exact leavesAlone_passMini scope

theorem leavesAlone_tear : LeavesAlone id isMini (tear id : Action K Ending) := by
  refine .get fun w hw => ?_
  split
  · rename_i s hs
    exact leavesAlone_poolHook hw hs _ _ _ _
  · exact leavesAlone_tearMini

theorem leavesAlone_attempt (name : String) (policy : Rotation.Policy) (retries attempts : Nat)
    (s : K.Service) : LeavesAlone id isMini (Rotation.attempt name policy retries attempts s) := by
  induction retries generalizing attempts s with
  | zero =>
    unfold Rotation.attempt
    refine .ite (fun _ => .pure trivial) fun _ => .seq (.interpret leavesAlone_carry _) ?_
    rintro ⟨s', answer⟩ -
    cases answer <;> exact .pure trivial
  | succ retries ih =>
    unfold Rotation.attempt
    refine .ite (fun _ => .pure trivial) fun _ => .seq (.interpret leavesAlone_carry _) ?_
    rintro ⟨s', answer⟩ -
    cases answer with
    | transient message =>
      dsimp only
      split
      · exact .pure trivial
      · exact .seq (leavesAlone_report _) fun _ _ => .rest (ih _ _)
    | _ => exact .pure trivial

theorem leavesTimer_adopt (store : Status) (w : World K) :
    LeavesTimer id w (Rotation.adopt cell store w) := by
  unfold Rotation.adopt
  split
  · exact .refl id w
  · exact ((leavesTimer_restand cell (·.assign store) w).trans (leavesTimer_report _ _)).trans
      (leavesTimer_publish _ _)

theorem leavesTimer_settle (finish : Rotation.Finish) (name : String) (w : World K) :
    LeavesTimer id w (finish.settle cell name w) := by
  cases finish with
  | granted credential attempts =>
    show LeavesTimer id w (Rotation.install cell attempts w)
    unfold Rotation.install
    split
    · exact .refl id w
    · have h (notice : Notice) (e : Event) : LeavesTimer id w (((w.modifyCell cell fun c =>
          { c with standing := c.standing.assign .available }).report notice).publish cell e) :=
        ((leavesTimer_restand cell (·.assign .available) w).trans (leavesTimer_report _ _)).trans
          (leavesTimer_publish _ e)
      dsimp only
      split
      · exact h _ _
      · exact (h _ _).trans (leavesTimer_publish _ _)
  | exhausted attempts message =>
    show LeavesTimer id w (Rotation.giveUp cell attempts message w)
    unfold Rotation.giveUp
    split
    · exact .refl id w
    · exact (leavesTimer_report _ _).trans (leavesTimer_publish _ _)
  | failed attempts message => exact leavesTimer_report w _
  | overflowed => exact .refl id w
  | panicked => exact .refl id w

theorem leavesAlone_rotateHeld :
    LeavesAlone id isMini (rotateHeld id : Action K Rotation.Result) := by
  refine .get fun w hw => ?_
  split
  · rename_i name s hfound
    obtain ⟨c, hc, hs, -⟩ := Rotation.of_undestroyed? hfound
    have hservice : isMini = false := isMini_of_service hw (by rw [hc, Option.map_some, hs])
    have hput (s' : K.Service) (v : World K) (hv : v.isMini? id = some isMini) :
        LeavesTimer id v (v.modifyCell id fun c => { c with inner := .service s' }) :=
      leavesTimer_putBack hv fun _ _ => hservice.symm
    refine .seq (.interpret leavesAlone_carry _) fun (s', store?) _ => ?_
    cases store? with
    | none => exact .modify (hput s') (.pure trivial)
    | some store =>
      refine .ite (fun _ => ?_) fun _ => ?_
      · exact .modify (hput s') (.modify (fun v _ => leavesTimer_adopt store v) (.pure trivial))
      · refine .seq (leavesAlone_attempt _ _ _ _ _) fun (s'', finish) _ => ?_
        exact .modify (hput _) (.modify (fun v _ => leavesTimer_settle finish name v)
          (.pure trivial))
  · exact .pure trivial

end Cell

end Steward
