import Steward.Proofs.Cell.Guarding
/-!
How far work on a cell reaches. All other cells stay as they are, but for the mini-services of a
component: its hooks build and destroy those that it keeps, and enroll new ones.
-/
namespace Steward

open Steward.Action World

variable {K : Kit}

/-- The cell that a hook belongs to. -/
def Invocation.cell? : Invocation → Option CellId
  | .factory _ => none
  | .build cell _ | .destroy cell | .buildMini cell _ | .destroyMini cell => some cell

namespace World

variable {spared : CellId → Prop} {v w : World K}

theorem KeepsCells.size_le (h : KeepsCells spared v w) : v.cells.size ≤ w.cells.size := by
  by_contra hlt
  obtain ⟨c, hc, -⟩ := h w.cells.size _ (Array.getElem?_eq_getElem (Nat.lt_of_not_le hlt))
  simp [cell?] at hc

theorem Keeps.size_le (h : Keeps spared v w) : v.cells.size ≤ w.cells.size := h.cells.size_le

end World

structure Reach (K : Kit) where
  bounds : Bounds K
  cell : CellId
  /-- The mini-services that the cell may come to keep. -/
  pool : Set CellId
  /-- How many cells there are before. -/
  size : Nat
  spared : Set CellId
  apart : ∀ x ∈ insert cell pool, x ∉ spared
  /-- Whether the process may be ended. -/
  exits : Prop

namespace Reach

variable {R : Reach K} {u v w : World K} {x : CellId}

def Confines (R : Reach K) : Inner K → Prop
  | .service s => R.bounds.minis s ⊆ R.pool ∧ ∀ x, R.size ≤ x → x ∈ R.pool
  | .mini _ => True

structure Suits (R : Reach K) (w : World K) : Prop where
  size_le : R.size ≤ w.cells.size
  confined : ∃ c, w.bare? R.cell = some c ∧ R.Confines c.inner

theorem Suits.guards {spared : CellId → Prop} (h : R.Suits v) (hkeeps : Keeps spared v w)
    (hvw : Guards R.cell v w) : R.Suits w := by
  obtain ⟨c, hc, hpool⟩ := h.confined
  exact ⟨Nat.le_trans h.size_le hkeeps.size_le, c, hvw c hc, hpool⟩

structure Tends (R : Reach K) (v w : World K) : Prop where
  keeps : Keeps (fun _ => False) v w
  guards : ∀ x ∈ R.spared, Guards x v w
  suits : R.Suits v → R.Suits w

theorem Tends.refl (R : Reach K) (w : World K) : R.Tends w w :=
  ⟨.refl _ w, fun x _ => .refl x w, fun h => h⟩

theorem Tends.trans (huv : R.Tends u v) (hvw : R.Tends v w) : R.Tends u w where
  keeps := huv.keeps.trans hvw.keeps
  guards x hx := (huv.guards x hx).trans (hvw.guards x hx)
  suits h := hvw.suits (huv.suits h)

/-- What others may do meanwhile: they leave the cell, and those that are spared, as they are. -/
structure Awaits (R : Reach K) (v w : World K) : Prop where
  keeps : Keeps (fun _ => False) v w
  cell : Guards R.cell v w
  guards : ∀ x ∈ R.spared, Guards x v w

theorem Awaits.trans (huv : R.Awaits u v) (hvw : R.Awaits v w) : R.Awaits u w where
  keeps := huv.keeps.trans hvw.keeps
  cell := huv.cell.trans hvw.cell
  guards x hx := (huv.guards x hx).trans (hvw.guards x hx)

theorem Awaits.tends (h : R.Awaits v w) : R.Tends v w :=
  ⟨h.keeps, h.guards, fun hv => hv.guards h.keeps h.cell⟩

theorem tends_of_bare (hkeeps : Keeps (fun _ => False) v w) (h : ∀ id, w.bare? id = v.bare? id) :
    R.Tends v w :=
  ⟨hkeeps, fun id _ => guards_of_eq (h id), fun hv => hv.guards hkeeps (guards_of_eq (h R.cell))⟩

theorem tends_restand {f : Standing → Standing} (hx : x ∈ insert R.cell R.pool)
    (hkeeps : Keeps (fun _ => False) v w)
    (h : ∀ id, w.bare? id = if x = id then (v.bare? id).map (Cell.restand f) else v.bare? id) :
    R.Tends v w where
  keeps := hkeeps
  guards id hid := guards_of_eq ((h id).trans (if_neg (by rintro rfl; exact R.apart x hx hid)))
  suits := by
    rintro ⟨hsize, c, hc, hpool⟩
    refine ⟨Nat.le_trans hsize hkeeps.size_le, ?_⟩
    rw [h, hc]
    split
    · exact ⟨_, rfl, hpool⟩
    · exact ⟨c, rfl, hpool⟩

theorem tends_putBack {inner : Inner K} {c : Cell K} (hx : x ∈ insert R.cell R.pool)
    (hc : u.cell? x = some c) (hlike : c.isMini = ({ c with inner } : Cell K).isMini)
    (huv : Keeps (fun _ => False) u v) (hinner : R.Confines inner) :
    R.Tends v (v.modifyCell x fun c => { c with inner }) := by
  have hkeeps : Keeps (fun _ => False) v (v.modifyCell x fun c => { c with inner }) :=
    Cell.keeps_putBack fun d hd => by
      obtain ⟨e, he, hce⟩ := huv.cells _ _ hc
      obtain rfl : e = d := Option.some.inj (he.symm.trans hd)
      exact hce.isMini.trans hlike
  refine ⟨hkeeps, fun id hid => ?_, fun ⟨hsize, d, hd, hpool⟩ => ?_⟩
  · exact guards_of_eq ((Cell.bare?_putBack x id inner v).trans
      (if_neg (by rintro rfl; exact R.apart x hx hid)))
  · refine ⟨Nat.le_trans hsize hkeeps.size_le, ?_⟩
    rw [Cell.bare?_putBack, hd]
    split
    · exact ⟨_, rfl, hinner⟩
    · exact ⟨d, rfl, hpool⟩

theorem tends_addCell (w : World K) (c : Cell K) : R.Tends w (w.addCell c) where
  keeps := keeps_addCell w c
  guards _ _ := guards_addCell w c
  suits h := by
    have hkeeps : Keeps (fun _ => False) w (w.addCell c) := keeps_addCell w c
    exact h.guards hkeeps (guards_addCell w c)

def terms (R : Reach K) : Terms K where
  others := R.Awaits
  own := R.Tends
  may what _ := ∃ x ∈ insert R.cell R.pool, what.cell? = some x
  mayExit := R.exits
  others_refl w := ⟨.refl _ w, .refl _ w, fun x _ => .refl x w⟩
  others_trans := .trans
  own_of_others := Awaits.tends
  own_trans := .trans

def Allows (R : Reach K) {α : Type} (p : Action K α) (w : World K) : Prop :=
  Meets R.terms p (fun _ _ _ => True) w

namespace Allows

variable {α β : Type} {p : Action K α} {f : α → Action K β}

theorem pure (a : α) : R.Allows (Pure.pure a) w := Meets.pure fun _ _ => trivial

theorem bind (hp : R.Allows p w) (hf : ∀ a v, R.Tends w v → R.Allows (f a) v) :
    R.Allows (p >>= f) w :=
  Meets.seq hp fun _ a v hv _ => hf a v hv

theorem get (f : World K → α) : R.Allows (Action.get f) w :=
  Meets.of_bind_pure (Meets.get fun _ _ => pure _)

theorem release (x : CellId) : R.Allows (Action.release x) w :=
  Meets.of_bind_pure (Meets.release (pure ()))

theorem modify {f : World K → World K} (h : ∀ v, R.Tends v (f v)) :
    R.Allows (Action.modify f) w :=
  Meets.of_bind_pure (Meets.modify fun v _ => ⟨h v, pure ()⟩)

theorem report (notice : Notice) : R.Allows (Action.report notice) w :=
  modify fun v => tends_of_bare (keeps_report v notice) fun _ => bare?_report v notice

theorem ite {b : Prop} [Decidable b] {q : Action K α} (hp : b → R.Allows p w)
    (hq : ¬ b → R.Allows q w) : R.Allows (if b then p else q) w := Meets.ite hp hq

theorem carry (call : Hook.Call) : R.Allows (Cell.carry call) w := by
  cases call with
  | note line => exact modify fun v => tends_of_bare (keeps_note v line) fun _ => bare?_note v line
  | rest millis => exact pure ()
  | statusOf other =>
    exact Meets.acquire (bind (get _) fun status _ _ => bind (release other) fun _ _ _ => pure _)
  | clock => exact get _

theorem hook (hook : Hook α) : R.Allows (hook.interpret Cell.carry) w := by
  induction hook generalizing w with
  | done a => exact pure a
  | call call next ih => exact bind (carry call) fun a _ _ => ih a

theorem onMini (hook : K.Mini → Hook β) {what : Invocation} {mini : β → K.Mini} {f : β → α}
    {q : Action K α} (hx : x ∈ insert R.cell R.pool) (hwhat : what.cell? = some x)
    (hq : ∀ v, R.Allows q v) :
    R.Allows (do
      match ← Cell.inner? x with
      | some (.mini m) =>
        invoke what fun _ => ()
        let b ← (hook m).interpret Cell.carry
        Cell.putBack x (.mini (mini b))
        return f b
      | _ => q) w := by
  refine Meets.get fun u _ => ?_
  split
  · rename_i m hinner
    obtain ⟨c, hc, hmini⟩ := Option.map_eq_some_iff.1 hinner
    refine Meets.invoke fun y hy => ⟨⟨x, hx, hwhat⟩, ?_⟩
    refine bind (Allows.hook (hook m)) fun b z hz => Meets.modify fun z' hz' => ⟨?_, pure _⟩
    have hkept := hy.keeps.trans (hz.keeps.trans hz'.keeps)
    exact tends_putBack hx hc (by simp [Cell.isMini, hmini]) hkept trivial
  · exact hq u

theorem passMini (hx : x ∈ insert R.cell R.pool) (scope : Scope) :
    R.Allows (Cell.passMini x scope) w :=
  onMini (fun m => K.mini.pass m scope) hx rfl fun _ => pure _

theorem tearMini (hx : x ∈ insert R.cell R.pool) : R.Allows (Cell.tearMini x) w :=
  onMini K.mini.destroy hx rfl fun _ => pure _

theorem buildWith {run : CellId → Scope → Action K (Scope × Ending)} {token : Token}
    (hx : x ∈ insert R.cell R.pool) (hrun : ∀ scope v, R.Tends w v → R.Allows (run x scope) v) :
    R.Allows (Cell.buildWith run x token) w := by
  refine bind (get _) fun started u hu => Meets.acquire (bind (get _) fun previous v hv => ?_)
  have hbegin (y : World K) : R.Tends y
      (y.modifyCell x fun c => { c with standing := c.standing.beginBuild }) :=
    tends_restand hx Cell.keeps_beginBuild fun id => Cell.bare?_restand x id _ y
  refine Meets.getModify fun y hy => ⟨hbegin y, ?_⟩
  have hy' := hu.trans (hv.trans (Awaits.tends hy))
  refine bind (hrun _ _ (hy'.trans (hbegin y))) fun ⟨asked, ending⟩ _ _ => ?_
  refine bind (get _) fun report _ _ => bind (modify fun z => ?_) fun _ _ _ => ?_
  · exact tends_restand hx (Cell.keeps_endBuild _ _ _ _) fun id => Cell.bare?_endBuild _ _ _ _ z
  refine bind (release x) fun _ _ _ => bind (modify fun z => ?_) fun _ _ _ => ?_
  · exact tends_of_bare (Cell.keeps_armAfter report) fun id => Cell.bare?_armAfter report z
  · exact ite (fun _ => pure _) fun _ => pure _

theorem destroyWith {tear : CellId → Action K Ending} (hx : x ∈ insert R.cell R.pool)
    (htear : ∀ v, R.Tends w v → R.Allows (tear x) v) : R.Allows (Cell.destroyWith tear x) w := by
  refine bind (modify fun v => ?_) fun _ u hu => Meets.acquire (bind (get _) fun found v hv => ?_)
  · exact tends_of_bare (keeps_cancelTimer v x) fun _ => bare?_cancelTimer v
  cases found with
  | none => exact pure ()
  | some c =>
    refine ite (fun _ => bind (report _) fun _ _ _ => release x) fun _ => ?_
    refine bind (modify fun y => ?_) fun _ y hy => ?_
    · exact tends_restand hx Cell.keeps_beginDestroy fun id => Cell.bare?_restand x id _ y
    refine bind (htear y (hu.trans (hv.trans hy))) fun ending z _ => ?_
    refine bind (modify fun z => ?_) fun _ _ _ => release x
    exact tends_restand hx (Cell.keeps_endDestroy ending False.elim)
      fun id => Cell.bare?_endDestroy ending z

theorem setStatus (hx : x ∈ insert R.cell R.pool) (status : Status) :
    R.Allows (Cell.setStatus x status) w := by
  refine Meets.acquire (bind (modify fun v => ?_) fun _ _ _ => release x)
  exact tends_restand hx (Cell.keeps_assign status) fun id => Cell.bare?_assign status v

end Allows

section Pool

variable {α : Type}

/-- A hook of a component that keeps to its bounds works on mini-services in the pool only, and
those that it enrolls come to be there. -/
theorem meets_poolHook {miniRefs : K.Mini → Set CellId} {refs minis : Set CellId}
    {hook : PoolHook K.Mini α} {post : Set CellId → α → Prop} (hw : R.Suits w)
    (hnew : ∀ x, R.size ≤ x → x ∈ R.pool) (hminis : minis ⊆ R.pool)
    (h : hook.Minds miniRefs refs minis post) :
    Meets R.terms (hook.interpret Cell.carryPool) (fun _ a _ => ∃ minis ⊆ R.pool, post minis a)
      w := by
  induction hook generalizing minis w with
  | done a => exact Meets.pure fun _ _ => ⟨minis, hminis, h⟩
  | call call next ih =>
    have hin {mini : CellId} (hmini : mini ∈ minis) : mini ∈ insert R.cell R.pool :=
      Set.mem_insert_of_mem _ (hminis hmini)
    cases call with
    | plain call =>
      exact Meets.seq (Allows.carry call) fun _ a v hv _ => ih a (hv.suits hw) hminis (h.2 a)
    | report notice =>
      exact Meets.seq (Allows.report notice) fun _ a v hv _ => ih a (hv.suits hw) hminis h
    | enroll name mini =>
      refine Meets.getModify fun v hv => ⟨tends_addCell v _, ?_⟩
      have hv' := (Awaits.tends hv).suits hw
      refine ih _ ((tends_addCell v _).suits hv') ?_ (h.2 v.cells.size)
      exact Set.insert_subset_iff.2 ⟨hnew _ hv'.size_le, hminis⟩
    | build mini token =>
      have hbuild : R.Allows (Cell.carryPool (.build mini token)) w :=
        Allows.bind (.get _) fun isMini v _ => .ite
          (fun _ => .buildWith (hin h.1) fun scope _ _ => .passMini (hin h.1) scope)
          fun _ => .pure _
      exact Meets.seq hbuild fun _ a v hv _ => ih a (hv.suits hw) hminis (h.2 a)
    | destroy mini =>
      have hdestroy : R.Allows (Cell.carryPool (.destroy mini)) w :=
        Allows.bind (.get _) fun isMini v _ => .ite
          (fun _ => .destroyWith (hin h.1) fun _ _ => .tearMini (hin h.1)) fun _ => .pure _
      exact Meets.seq hdestroy fun _ a v hv _ => ih a (hv.suits hw) hminis h.2

theorem Allows.onService {β : Type} (hook : K.Service → PoolHook K.Mini β) {what : Invocation}
    {service : β → K.Service} {f : β → α} {q : Action K α} (hw : R.Suits w)
    (hwhat : what.cell? = some R.cell)
    (hhook : ∀ s, (hook s).Minds R.bounds.miniRefs (R.bounds.refs s) (R.bounds.minis s)
      fun minis b => R.bounds.Keeps (R.bounds.refs s) minis (service b))
    (hq : ∀ v, R.Allows q v) :
    R.Allows (do
      match ← Cell.inner? R.cell with
      | some (.service s) =>
        invoke what fun _ => ()
        let b ← (hook s).interpret Cell.carryPool
        Cell.putBack R.cell (.service (service b))
        return f b
      | _ => q) w := by
  have hcell : R.cell ∈ insert R.cell R.pool := Set.mem_insert _ _
  refine Meets.get fun u hu => ?_
  have hu' := (Awaits.tends hu).suits hw
  split
  · rename_i s hinner
    obtain ⟨c, hc, hs⟩ := Option.map_eq_some_iff.1 hinner
    obtain ⟨hminis, hnew⟩ : R.Confines (.service s) := by
      obtain ⟨d, hd, hpool⟩ := hu'.confined
      obtain rfl : c.bare = d := Option.some.inj ((bare?_of_cell? hc).symm.trans hd)
      have hbare : c.bare.inner = .service s := hs
      rwa [hbare] at hpool
    refine Meets.invoke fun y hy => ⟨⟨R.cell, hcell, hwhat⟩, ?_⟩
    refine Meets.seq (meets_poolHook ((Awaits.tends hy).suits hu') hnew hminis (hhook s))
      fun _ b z hz ⟨minis, hpool, hb⟩ => ?_
    refine Meets.modify fun z' hz' => ⟨?_, Allows.pure _⟩
    have hkeeps := hy.keeps.trans (hz.keeps.trans hz'.keeps)
    have hconfined : R.Confines (.service (service b)) := ⟨hb.minis.trans hpool, hnew⟩
    exact tends_putBack hcell hc (by simp [Cell.isMini, hs]) hkeeps hconfined
  · exact hq u

theorem Allows.pass (hw : R.Suits w) (scope : Scope) : R.Allows (Cell.pass R.cell scope) w :=
  .onService (fun s => K.service.pass s scope) hw rfl
    (fun _ => R.bounds.pass scope ⟨subset_rfl, subset_rfl⟩)
    fun _ => .passMini (Set.mem_insert _ _) scope

theorem Allows.tear (hw : R.Suits w) : R.Allows (Cell.tear R.cell) w :=
  .onService K.service.destroy hw rfl
    (fun _ => R.bounds.destroy ⟨subset_rfl, subset_rfl⟩) fun _ => .tearMini (Set.mem_insert _ _)

theorem Allows.build (hw : R.Suits w) (token : Token) : R.Allows (Cell.build R.cell token) w :=
  .buildWith (Set.mem_insert _ _) fun scope _ hv => .pass (hv.suits hw) scope

theorem Allows.destroy (hw : R.Suits w) : R.Allows (Cell.destroy R.cell) w :=
  .destroyWith (Set.mem_insert _ _) fun _ hv => .tear (hv.suits hw)

end Pool

end Reach

end Steward
