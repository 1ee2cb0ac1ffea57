import Steward.Proofs.Cell.History
/-!
Mini-services, as the manager sees them that keeps them. While others leave the cells alone that are
the manager's, a mini-service that it builds stands where its report says, one that it destroys is
destroyed, its hook is run once, and nothing else happens to any of them.
-/
namespace Steward

open Steward.Action World

variable {K : Kit} {α β : Type}

namespace Action

/-- A program comes to no other code of the application, and does not end the process. -/
def Invokes (may : Invocation → Prop) : Action K α → Prop
  | .done _ => True
  | .call (.update _) next => ∀ v, Invokes may (next v)
  | .call (.invoke what) next => may what ∧ ∀ v, Invokes may (next v)
  | .call (.acquire _ _) next => Invokes may (next ())
  | .call (.release _) next => Invokes may (next ())
  | .call (.rest _) next => Invokes may (next ())
  | .call (.restUnlessCancelled _) next => ∀ isCancelled, Invokes may (next isCancelled)
  | .call (.exit _) _ => False

section Invokes

variable {may may' : Invocation → Prop} {p : Action K α} {w : World K}

theorem Invokes.bind {f : α → Action K β} (h : Invokes may p) (hf : ∀ a, Invokes may (f a)) :
    Invokes may (p >>= f) := by
  induction p with
  | done a => exact hf a
  | call effect next ih =>
    cases effect with
    | update f => exact fun v => ih v (h v)
    | invoke what => exact ⟨h.1, fun v => ih v (h.2 v)⟩
    | acquire cell access => exact ih () h
    | release cell => exact ih () h
    | rest millis => exact ih () h
    | restUnlessCancelled millis => exact fun b => ih b (h b)
    | exit code => exact h

theorem Invokes.interpret {ι : Type} {Answer : ι → Type} {carry : (i : ι) → Action K (Answer i)}
    (h : ∀ i, Invokes may (carry i)) (hook : Program Answer α) :
    Invokes may (hook.interpret carry) := by
  induction hook with
  | done a => trivial
  | call i next ih => exact (h i).bind ih

theorem Invokes.ite {b : Prop} [Decidable b] {q : Action K α} (hp : Invokes may p)
    (hq : Invokes may q) : Invokes may (if b then p else q) := by
  split
  · exact hp
  · exact hq

theorem Invokes.pure (a : α) : Invokes may (Pure.pure a : Action K α) := trivial

theorem Invokes.get {f : World K → α} {g : α → Action K β} (h : ∀ a, Invokes may (g a)) :
    Invokes may (Action.get f >>= g) := fun v => h (f v)

theorem Invokes.modify {f : World K → World K} {next : Unit → Action K β}
    (h : Invokes may (next ())) : Invokes may (Action.modify f >>= next) := fun _ => h

theorem Invokes.getModify {f : World K → α} {change : World K → World K} {g : α → Action K β}
    (h : ∀ a, Invokes may (g a)) : Invokes may (Action.getModify f change >>= g) := fun v => h (f v)

theorem Invokes.acquire {cell : CellId} {access : Access} {next : Unit → Action K β}
    (h : Invokes may (next ())) : Invokes may (Action.acquire cell access >>= next) := h

theorem Invokes.release {cell : CellId} {next : Unit → Action K β} (h : Invokes may (next ())) :
    Invokes may (Action.release cell >>= next) := h

/-- Where a task may do and call what it likes, all that is known of it is what it can come to. -/
theorem meets_of_invokes {T : Terms K} (hown : ∀ u v, T.own u v) (hmay : ∀ what v, T.may what v)
    (h : Invokes may p) : Meets T p (fun calls _ _ => ∀ call ∈ calls, may call.1) w := by
  induction p generalizing w with
  | done a => exact fun _ _ => List.forall_mem_nil _
  | call effect next ih =>
    cases effect with
    | update f => exact fun u _ => ⟨hown _ _, ih u (h u)⟩
    | invoke what =>
      refine fun u _ => ⟨hmay what u, (ih u (h.2 u)).mono fun calls _ _ hcalls => ?_⟩
      exact List.forall_mem_cons.2 ⟨h.1, hcalls⟩
    | acquire cell access => exact ih () h
    | release cell => exact ih () h
    | rest millis => exact ih () h
    | restUnlessCancelled millis => exact fun b => ih b (h b)
    | exit code => exact h.elim

end Invokes

end Action

namespace Cell

section Invokes

variable {may : Invocation → Prop} {cell : CellId}

theorem invokes_carry (call : Hook.Call) : Invokes may (carry call : Action K call.Answer) := by
  cases call with
  | note line => exact fun _ => trivial
  | rest millis => trivial
  | statusOf other => exact fun _ => trivial
  | clock => exact fun _ => trivial

theorem invokes_passMini {scope : Scope} (hmay : may (.buildMini cell scope.token)) :
    Invokes may (passMini cell scope : Action K _) := by
  refine .get fun inner => ?_
  split
  · exact ⟨hmay, fun _ => (Invokes.interpret invokes_carry _).bind fun _ => .modify (.pure _)⟩
  · exact .pure _

theorem invokes_tearMini (hmay : may (.destroyMini cell)) :
    Invokes may (tearMini cell : Action K Ending) := by
  refine .get fun inner => ?_
  split
  · exact ⟨hmay, fun _ => (Invokes.interpret invokes_carry _).bind fun _ => .modify (.pure _)⟩
  · exact .pure _

theorem invokes_buildMini (cell : CellId) (token : Token) :
    Invokes (· = .buildMini cell token) (buildMini cell token : Action K _) := by
  refine .get fun _ => .acquire (.get fun _ => .getModify fun _ => .bind (invokes_passMini ?_)
    fun ⟨asked, ending⟩ => ?_)
  · rfl
  · exact .get fun _ => .modify (.release (.modify (.ite (.pure _) (.pure _))))

theorem invokes_destroyMini (cell : CellId) :
    Invokes (· = .destroyMini cell) (destroyMini cell : Action K Unit) := by
  refine .modify (.acquire (.get fun c => ?_))
  split
  · split
    · exact .modify (.release (.pure _))
    · refine .modify (.bind (invokes_tearMini ?_) fun _ => .modify (.release (.pure _)))
      rfl
  · exact .pure _

end Invokes

theorem mute_carry {T : Terms K} (hT : Lends T) (call : Hook.Call) {w : World K} :
    Meets T (carry call) (fun calls _ _ => calls = []) w := by
  cases call with
  | note line =>
    exact Meets.of_bind_pure (Meets.modify fun v _ => ⟨hT.note v line, Meets.pure fun _ _ => rfl⟩)
  | rest millis => exact fun _ _ => rfl
  | statusOf cell =>
    show Meets T (status cell) _ w
    exact Meets.acquire (Meets.get fun _ _ => Meets.release (Meets.pure fun _ _ => rfl))
  | clock => exact Meets.of_bind_pure (Meets.get fun _ _ => Meets.pure fun _ _ => rfl)

theorem mute_hook {T : Terms K} (hT : Lends T) (hook : Hook α) {w : World K} :
    Meets T (hook.interpret carry) (fun calls _ _ => calls = []) w := by
  induction hook generalizing w with
  | done a => exact Meets.pure fun _ _ => rfl
  | call call next ih =>
    refine Meets.seq (mute_carry hT call) fun before a v _ hbefore => (ih a).mono ?_
    rintro after b u rfl
    rw [hbefore]
    rfl

section Mini

variable {w : World K} {cell : CellId} {face : Face}

def answerOf (name : String) (report : Report) : Except Fault Report :=
  if report.outcome.isFatal then .error (.buildAborted name (report.message.getD ""))
  else .ok report

theorem meets_buildWith_answer {run : CellId → Scope → Action K (Scope × Ending)}
    (hrun : ∀ scope v, Meets (minding cell) (run cell scope) (fun _ _ _ => True) v)
    (hcell : w.face? cell = some face) (token : Token) :
    Meets (working cell) (buildWith run cell token) (fun _ r v => ∃ report deed,
      Passed cell token face ((face.name, report), deed) v ∧ r = answerOf face.name report) w := by
  rw [buildWith_eq]
  refine Meets.get fun u hu => Meets.acquire ?_
  refine Meets.seq (meets_buildHeld hrun (hu _ hcell) token _) fun _ ⟨done, deed⟩ v _ hv => ?_
  obtain ⟨asked, ending, elapsedMillis, finishedAt, hname, htoken, hr, hv⟩ := hv
  obtain ⟨rfl, rfl⟩ := Prod.mk.inj hr
  refine Meets.release (Meets.modify fun x hx => ⟨trivial, ?_⟩)
  have hx' : (armAfter cell (asked.report ending elapsedMillis finishedAt) x).face? cell = _ :=
    (face?_armAfter _ x).trans (hx _ hv)
  have hpassed (y : World K)
      (hy : Spares cell (armAfter cell (asked.report ending elapsedMillis finishedAt) x) y) :
      Passed cell token face
        ((face.name, asked.report ending elapsedMillis finishedAt), .built asked ending) y :=
    ⟨asked, ending, elapsedMillis, finishedAt, hname, htoken, rfl, hy _ hx'⟩
  unfold answerOf
  split
  · rename_i hfatal
    exact Meets.pure fun y hy => ⟨_, _, hpassed y hy, (if_pos hfatal).symm⟩
  · rename_i hfatal
    exact Meets.pure fun y hy => ⟨_, _, hpassed y hy, (if_neg hfatal).symm⟩

theorem meets_buildMini (hcell : w.face? cell = some face) (token : Token) :
    Meets (working cell) (buildMini cell token) (fun _ r v => ∃ report disabled,
      r = answerOf face.name report ∧
        v.face? cell = some (face.restand (·.endBuild report disabled))) w := by
  have hpass : ∀ scope v, Meets (minding cell) (passMini cell scope) (fun _ _ _ => True)
      (v : World K) :=
    fun scope _ => (quiet_passMini lends_minding scope).mono fun _ _ _ _ => trivial
  refine (meets_buildWith_answer hpass hcell token).mono fun _ r v hbuilt => ?_
  obtain ⟨_, _, ⟨asked, ending, elapsedMillis, finishedAt, -, -, ⟨⟩, hv⟩, hr⟩ := hbuilt
  exact ⟨_, _, hr, hv⟩

theorem meets_tearMini (hcell : w.face? cell = some face) (hmini : face.isMini = true) :
    Meets (minding cell) (tearMini cell) (fun calls _ _ =>
      calls.map (·.1) = [.destroyMini cell]) w := by
  refine Meets.get fun u hu => ?_
  obtain ⟨c, hc, rfl⟩ := exists_cell_of_face? (hu _ hcell)
  have hinner : ∃ m, c.inner = .mini m := by
    cases h : c.inner with
    | mini m => exact ⟨m, rfl⟩
    | service s => simp [Cell.face, Cell.isMini, h] at hmini
  obtain ⟨m, hm⟩ := hinner
  rw [hc, Option.map_some, hm]
  refine Meets.invoke fun x hx => ⟨trivial, ?_⟩
  refine Meets.seq (mute_hook lends_minding _) fun before r y hy hbefore => ?_
  obtain ⟨m', ending⟩ := r
  have hlike : c.isMini = ({ c with inner := .mini m' } : Cell K).isMini := hmini
  subst hbefore
  refine Meets.modify fun z hz => ⟨?_, Meets.pure fun _ _ => rfl⟩
  exact lends_minding.putBack hc hlike (hx.trans (hy.trans hz))

/-- A mini-service that was not destroyed is destroyed, and its hook is run once; after that
nothing happens to it any more. -/
theorem meets_destroyMini (hcell : w.face? cell = some face) (hmini : face.isMini = true) :
    Meets (working cell) (destroyMini cell : Action K Unit) (fun calls _ v =>
      (∃ standing, v.face? cell = some { face with standing } ∧ standing.destroyed = true) ∧
        (face.standing.destroyed = false → calls.map (·.1) = [.destroyMini cell])) w := by
  rw [destroyMini, destroyWith_eq]
  refine Meets.modify fun u hu => ⟨trivial, Meets.acquire (Meets.get fun v hv => ?_)⟩
  have hface : v.face? cell = some face := hv _ (by rw [face?_cancelTimer]; exact hu _ hcell)
  obtain ⟨c, hc, rfl⟩ := exists_cell_of_face? hface
  rw [hc]
  refine Meets.seq (meets_destroyHeld (fun calls => calls.map (·.1) = [.destroyMini cell]) hface
    fun x hx => meets_tearMini hx hmini) fun calls deed x _ ⟨⟨standing, hx, hdoes⟩, hcalls⟩ => ?_
  refine Meets.release (Meets.pure fun y hy => ⟨⟨standing, hy _ hx, ?_⟩, fun hstanding => ?_⟩)
  · cases hdoes with
    | destroy => rfl
    | destroyAgain hdestroyed => exact hdestroyed
  · rw [List.append_nil]
    exact hcalls hstanding

end Mini

/-- Terms for a manager: others leave the cells alone that are its own. -/
def tending (ours : CellId → Prop) : Terms K where
  others u v := ∀ id, ours id → Spares id u v
  own := fun _ _ => True
  may := fun _ _ => True
  mayExit := False
  others_refl w _ _ := .refl _ w
  others_trans huv hvw id hid := (huv id hid).trans (hvw id hid)
  own_of_others := fun _ => trivial
  own_trans := fun _ _ => trivial

section Tending

variable {ours : CellId → Prop} {w : World K} {cell id : CellId} {p : Action K α}
  {post : Calls K → α → World K → Prop}

theorem tending_of_working (hid : ours id) (h : Meets (working id) p post w) :
    Meets (tending ours) p post w :=
  h.relax (fun _ _ hothers => hothers id hid) (fun _ _ h => h) (fun _ _ h => h) fun h => h

theorem meets_tending {may : Invocation → Prop} {post : Face → Calls K → α → World K → Prop}
    (hinvokes : Invokes may p) (hbeside : ∀ id, cell ≠ id → Quiet (minding id) p w)
    (hhere : ∀ face, w.face? cell = some face → Meets (working cell) p (post face) w) :
    Meets (tending ours) p (fun calls a v => (∀ call ∈ calls, may call.1) ∧
      (∀ id, ours id → cell ≠ id → Spares id w v) ∧
        ∀ face, ours cell → w.face? cell = some face → post face calls a v) w := by
  have hcalls : Meets (tending ours) p (fun calls _ _ => ∀ call ∈ calls, may call.1) w :=
    meets_of_invokes (fun _ _ => trivial) (fun _ _ => trivial) hinvokes
  have hspares (id : { id // ours id ∧ cell ≠ id }) :
      Meets (tending ours) p (fun _ _ v => Spares id w v) w :=
    tending_of_working id.2.1 (spares_of_minding (hbeside id id.2.2))
  have hpost (face : { face // ours cell ∧ w.face? cell = some face }) :
      Meets (tending ours) p (post face) w :=
    tending_of_working face.2.1 (hhere face face.2.2)
  refine ((hcalls.all hspares).all hpost).mono fun calls a v h => ⟨h.1.1, ?_, ?_⟩
  · exact fun id hid hne => h.1.2 ⟨id, hid, hne⟩
  · exact fun face hours hface => h.2 ⟨face, hours, hface⟩

theorem holdsMini_iff {face : Face} (h : w.face? cell = some face) :
    w.holdsMini cell = true ↔ face.isMini = true := by
  obtain ⟨c, hc, rfl⟩ := exists_cell_of_face? h
  rw [holdsMini, hc]
  rfl

theorem tends_guarded {may : Invocation → Prop} {post : Face → Calls K → α → World K → Prop}
    (a : α) (hinvokes : Invokes may p) (hbeside : ∀ id u, cell ≠ id → Quiet (minding id) p u)
    (hhere : ∀ face u, u.face? cell = some face → face.isMini = true →
      Meets (working cell) p (post face) u) :
    Meets (tending ours) (do if ← get (·.holdsMini cell) then p else return a)
      (fun calls r v => (∀ call ∈ calls, may call.1) ∧
        (∀ id, ours id → cell ≠ id → Spares id w v) ∧
        ∀ face, ours cell → w.face? cell = some face → face.isMini = true →
          post face calls r v) w := by
  refine Meets.get fun u hu => Meets.ite (fun hmini => ?_) fun hmini => ?_
  · refine (meets_tending hinvokes (fun id => hbeside id u) fun face hface =>
      hhere face u hface ((holdsMini_iff hface).1 hmini)).mono ?_
    rintro calls r v ⟨hcalls, hspares, hhere⟩
    refine ⟨hcalls, fun id hid hne => (hu id hid).trans (hspares id hid hne), ?_⟩
    exact fun face hours hface _ => hhere face hours (hu cell hours _ hface)
  · refine Meets.pure fun v hv => ⟨List.forall_mem_nil _, ?_, ?_⟩
    · exact fun id hid _ => (hu id hid).trans (hv id hid)
    · exact fun face hours hface hisMini =>
        absurd ((holdsMini_iff (hu cell hours _ hface)).2 hisMini) hmini

theorem tends_build (token : Token) :
    Meets (tending ours) (carryPool (.build cell token : PoolHook.Call K.Mini))
      (fun calls r v => (∀ call ∈ calls, call.1 = .buildMini cell token) ∧
        (∀ id, ours id → cell ≠ id → Spares id w v) ∧
        ∀ face, ours cell → w.face? cell = some face → face.isMini = true →
          ∃ report disabled, r = answerOf face.name report ∧
            v.face? cell = some { face with standing := face.standing.endBuild report disabled })
      w :=
  tends_guarded _ (invokes_buildMini cell token)
    (fun _ _ hne => quiet_buildMini_of lends_minding (yielding_minding hne) token)
    fun _ _ hface _ => meets_buildMini hface token

theorem tends_destroy :
    Meets (tending ours) (carryPool (.destroy cell : PoolHook.Call K.Mini))
      (fun calls _ v => (∀ call ∈ calls, call.1 = .destroyMini cell) ∧
        (∀ id, ours id → cell ≠ id → Spares id w v) ∧
        ∀ face, ours cell → w.face? cell = some face → face.isMini = true →
          (∃ standing, v.face? cell = some { face with standing } ∧ standing.destroyed = true) ∧
            (face.standing.destroyed = false → calls.map (·.1) = [.destroyMini cell])) w :=
  tends_guarded _ (invokes_destroyMini cell)
    (fun _ _ hne => quiet_destroyMini_of lends_minding (yielding_minding hne))
    fun _ _ hface hmini => meets_destroyMini hface hmini

end Tending

end Cell

end Steward
