import Steward.Proofs.Cell.Calling
import Steward.Proofs.Rotation.Slot
/-!
What each task has to do with the timer of a cell. Nothing, unless it is called to destroy, and then
to cancel the timer, or its build pass was of use, and then to arm one. A teardown cancels the timer
as soon as it is called, before it has the lock, and a build arms its timer after it has given the
lock up, so neither chore is done under the lock.
-/
namespace Steward

open Steward.Action Telling World

variable {K : Kit} {α β ρ : Type}

namespace Cell

inductive Chore where
  | none
  /-- It is called to destroy, and has not cancelled the timer yet. -/
  | cancel
  /-- Its build pass was of use, and the build has not returned yet. -/
  | arm

/-- Whoever has a chore tells nothing, unless that its build has returned. -/
def Chore.MayTell : Chore → Word → Prop
  | .none, _ => True
  | .cancel, _ => False
  | .arm, word => ∃ op, word = .returned op

inductive Chore.Writes (id : CellId) : Chore → World K → World K → Chore → Prop
  | leaves (chore : Chore) {v w : World K} (h : LeavesTimer id v w) : Writes id chore v w chore
  | cancels {v w : World K} (h : w = v.cancelTimer id) : Writes id .cancel v w .none
  | arms {v w : World K} (h : w = v.armTimer id) : Writes id .arm v w .arm

def Word.chore : Word → Chore
  | .called .destroy => .cancel
  | word => if word.isUsablePass then .arm else .none

/-- From a chore on `p` does nothing to the timer of a cell but its chore, and ends with a chore as
`post` says. -/
def Heeds (id : CellId) (isMini : Bool) : Telling K Word α → (α → Chore → Prop) → Chore → Prop
  | .done a, post, chore => post a chore
  | .call (.tell word) next, post, chore =>
    chore.MayTell word ∧ Heeds id isMini (next ()) post word.chore
  | .call (.effect (.update f)) next, post, chore => ∀ v : World K, v.isMini? id = some isMini →
    ∃ chore', chore.Writes id v (f v) chore' ∧ Heeds id isMini (next v) post chore'
  | .call (.effect (.invoke _)) next, post, chore => ∀ v : World K, v.isMini? id = some isMini →
    Heeds id isMini (next v) post chore
  | .call (.effect (.acquire _ _)) next, post, chore => Heeds id isMini (next ()) post chore
  | .call (.effect (.release _)) next, post, chore => Heeds id isMini (next ()) post chore
  | .call (.effect (.rest _)) next, post, chore => Heeds id isMini (next ()) post chore
  | .call (.effect (.restUnlessCancelled _)) next, post, chore =>
    ∀ isCancelled, Heeds id isMini (next isCancelled) post chore
  | .call (.effect (.exit _)) _, _, _ => True

section Heeds

variable {id : CellId} {isMini : Bool} {chore : Chore} {post : β → Chore → Prop}

theorem Heeds.seq {p : Telling K Word α} {f : α → Telling K Word β} {mid : α → Chore → Prop}
    (h : Heeds id isMini p mid chore)
    (hf : ∀ a chore', mid a chore' → Heeds id isMini (f a) post chore') :
    Heeds id isMini (p >>= f) post chore := by
  induction p generalizing chore with
  | done a => exact hf a chore h
  | call move next ih =>
    cases move with
    | tell word => exact ⟨h.1, ih () h.2⟩
    | effect e =>
      cases e with
      | update f => exact fun v hv => (h v hv).imp fun _ h => ⟨h.1, ih v h.2⟩
      | invoke what => exact fun v hv => ih v (h v hv)
      | acquire cell access => exact ih () h
      | release cell => exact ih () h
      | rest millis => exact ih () h
      | restUnlessCancelled millis => exact fun b => ih b (h b)
      | exit code => trivial

theorem Heeds.mono {p : Telling K Word β} {post' : β → Chore → Prop}
    (h : Heeds id isMini p post chore) (hpost : ∀ b chore', post b chore' → post' b chore') :
    Heeds id isMini p post' chore := by
  rw [← bind_pure p]
  exact h.seq hpost

theorem Heeds.silent {p : Action K α} {f : α → Telling K Word β} {mid : α → Prop}
    (h : Aloof id isMini p mid) (hf : ∀ a, mid a → Heeds id isMini (f a) post chore) :
    Heeds id isMini (silent p >>= f) post chore := by
  induction p with
  | done a => exact hf a h
  | call effect next ih =>
    cases effect with
    | update f => exact fun v hv => ⟨chore, .leaves chore (h v hv).1, ih v (h v hv).2⟩
    | invoke what => exact fun v hv => ih v (h v hv)
    | acquire cell access => exact ih () h
    | release cell => exact ih () h
    | rest millis => exact ih () h
    | restUnlessCancelled millis => exact fun b => ih b (h b)
    | exit code => trivial

theorem Heeds.get {f : World K → α} {g : α → Telling K Word β}
    (h : ∀ v, Heeds id isMini (g (f v)) post chore) :
    Heeds id isMini (Telling.silent (Action.get f) >>= g) post chore :=
  fun v _ => ⟨chore, .leaves chore (.refl id v), h v⟩

theorem Heeds.acquire {cell : CellId} {access : Access} {next : Unit → Telling K Word β}
    (h : Heeds id isMini (next ()) post chore) :
    Heeds id isMini (Telling.silent (Action.acquire cell access) >>= next) post chore := h

theorem Heeds.release {cell : CellId} {next : Unit → Telling K Word β}
    (h : Heeds id isMini (next ()) post chore) :
    Heeds id isMini (Telling.silent (Action.release cell) >>= next) post chore := h

theorem Heeds.tell {word : Word} {next : Unit → Telling K Word β} (hmay : chore.MayTell word)
    (h : Heeds id isMini (next ()) post word.chore) :
    Heeds id isMini (Telling.tell word >>= next) post chore := ⟨hmay, h⟩

abbrev Fulfils (id : CellId) (isMini : Bool) (p : Telling K Word α) : Prop :=
  Heeds id isMini p (fun _ chore => chore = .none) .none

theorem Fulfils.interpret {ι : Type} {Answer : ι → Type}
    {carry : (i : ι) → Telling K Word (Answer i)} (h : ∀ i, Fulfils id isMini (carry i))
    (p : Program Answer α) : Fulfils id isMini (p.interpret carry) := by
  induction p with
  | done a => rfl
  | call i next ih =>
    refine (h i).seq fun a chore hchore => ?_
    subst hchore
    exact ih a

theorem heeds_underLock {op : Operation} {held : Action K (α × Deed)} {mid : α × Deed → Prop}
    (hheld : Aloof id isMini held mid) :
    Heeds id isMini (relay .told (underLock id op held)) (fun a chore =>
      ∃ deed, mid (a, deed) ∧ chore = (Word.told (.done op deed)).chore) .none := by
  simp only [underLock, relay_bind, relay_silent, relay_tell]
  refine .acquire (.tell trivial (.silent hheld fun done hmid => ?_))
  exact .tell trivial (.release ⟨done.2, hmid, rfl⟩)

theorem heeds_buildAfter (name : String) (report : Report) :
    Heeds id isMini (silent (buildAfter id name report) : Telling K Word _)
      (fun _ chore => chore ≠ .cancel) (if report.outcome.isUsable then .arm else .none) := by
  intro v _
  have hanswer (chore : Chore) (hchore : chore ≠ .cancel) :
      Heeds id isMini (Telling.silent (if report.outcome.isFatal then
        return .error (.buildAborted name (report.message.getD ""))
      else return .ok report) : Telling K Word (Except Fault Report))
        (fun _ chore => chore ≠ .cancel) chore := by
    split <;> exact hchore
  have hleaves : LeavesTimer id v (armAfter id report v) ∨
      report.outcome.isUsable = true ∧ armAfter id report v = v.armTimer id := by
    unfold armAfter
    split
    · split
      · rename_i c _ harms
        exact .inr ⟨(Bool.and_eq_true_iff.1 harms).1, rfl⟩
      · exact .inl (.refl id v)
    · exact .inl (.refl id v)
  rcases hleaves with hleaves | ⟨husable, harms⟩
  · exact ⟨_, .leaves _ hleaves, hanswer _ (by split <;> simp)⟩
  · rw [husable]
    exact ⟨.arm, .arms harms, hanswer .arm (by simp)⟩

theorem heeds_buildTelling (token : Token) :
    Heeds id isMini (relay .told (buildTelling id token : Telling K Mark _))
      (fun _ chore => chore ≠ .cancel) .none := by
  simp only [buildTelling, relay_bind, relay_silent]
  refine .get fun started => .seq (heeds_underLock (aloof_buildHeld leavesAlone_pass token _)) ?_
  rintro ⟨name, report⟩ chore ⟨deed, ⟨asked, ending, rfl, houtcome⟩, rfl⟩
  have hchore : (Word.told (.done (.build token) (.built asked ending))).chore =
      if report.outcome.isUsable then .arm else .none := houtcome ▸ rfl
  rw [hchore]
  exact heeds_buildAfter name report

theorem heeds_destroyTelling :
    Heeds id isMini (relay .told (destroyTelling id : Telling K Mark Unit))
      (fun _ chore => chore = .none) .cancel := by
  simp only [destroyTelling, relay_bind, relay_silent, relay_tell]
  refine fun v _ => ⟨.none, .cancels rfl, .acquire (.tell trivial (.get fun u => ?_))⟩
  cases u.cell? id with
  | none => rfl
  | some c =>
    simp only [relay_bind, relay_silent, relay_tell]
    refine .silent (aloof_destroyHeld leavesAlone_tear c) fun deed hdeed => .tell trivial ?_
    rcases hdeed with rfl | rfl <;> rfl

theorem fulfils_readingTelling (f : Option (Cell K) → α) :
    Fulfils id isMini (relay .told (readingTelling id f : Telling K Mark α)) := by
  simp only [readingTelling, relay_bind, relay_silent]
  refine .acquire (.get fun v => ?_)
  cases v.cell? id with
  | none => rfl
  | some c => exact ⟨trivial, rfl⟩

theorem fulfils_callTelling (method : String) (body : Cell K → Hook ρ) :
    Fulfils id isMini (relay .told (callTelling id method body : Telling K Mark _)) := by
  simp only [callTelling, relay_bind, relay_silent]
  refine .acquire (.get fun v => ?_)
  cases v.cell? id with
  | none => rfl
  | some c =>
    simp only [relay_bind, relay_tell]
    refine .tell trivial ?_
    cases c.standing.gate c.name method with
    | error refusal => rfl
    | ok _ =>
      simp only [relay_bind, relay_silent, relay_tell]
      exact .tell trivial (.silent (.interpret leavesAlone_carry _) fun _ _ => .tell trivial rfl)

theorem heeds_telling {r : Request K ρ} {op : Operation} (hop : r.operation? = some op) :
    Heeds id isMini (relay .told (r.telling id)) (fun _ chore => chore ≠ .cancel)
      (Word.called op).chore := by
  cases r with
  | build token =>
    cases hop
    exact heeds_buildTelling token
  | destroy =>
    cases hop
    exact heeds_destroyTelling.mono fun _ _ hchore => by simp [hchore]
  | setStatus status =>
    cases hop
    have hheld : Aloof id isMini (do
        modify (assign id status)
        return ((), .assigned status) : Action K (Unit × Deed)) (·.2 = .assigned status) :=
      .modify (fun w _ => leavesTimer_assign status w) (.pure rfl)
    refine (heeds_underLock hheld).mono ?_
    rintro _ _ ⟨_, rfl, rfl⟩
    simp [Word.chore, Word.isUsablePass, Mark.isUsablePass]
  | rotate =>
    cases hop
    have hheld : Aloof id isMini (do
        let result ← rotateHeld id
        return (result, .ofTick result) : Action K (Rotation.Result × Deed))
        (fun done => done.2 = .ofTick done.1) := .seq leavesAlone_rotateHeld fun _ _ => .pure rfl
    refine (heeds_underLock hheld).mono ?_
    rintro result _ ⟨deed, hdeed, rfl⟩
    obtain rfl : deed = .ofTick result := hdeed
    cases result <;> simp [Word.chore, Word.isUsablePass, Mark.isUsablePass, Deed.ofTick]
  | call method body => cases hop
  | status => cases hop
  | look => cases hop

theorem fulfils_telling {r : Request K ρ} (hop : r.operation? = none) :
    Fulfils id isMini (relay .told (r.telling id)) := by
  cases r with
  | call method body => exact fulfils_callTelling method body
  | status => exact fulfils_readingTelling _
  | look => exact fulfils_readingTelling _
  | _ => cases hop

theorem fulfils_calling (r : Request K ρ) : Fulfils id isMini (r.calling id) := by
  unfold Request.calling
  cases hop : r.operation? with
  | none => exact (fulfils_telling hop).seq fun _ _ hchore => hchore
  | some op =>
    refine .tell trivial ((heeds_telling hop).seq fun a chore hchore => .tell ?_ rfl)
    cases chore with
    | none => trivial
    | cancel => exact absurd rfl hchore
    | arm => exact ⟨op, rfl⟩

end Heeds

end Cell

end Steward
