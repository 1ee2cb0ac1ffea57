import Steward.Proofs.Cell.Chronicle
import Steward.Proofs.Cell.Request
/-!
How tasks tell of a cell what they do to it. A task changes the status of a cell only while it holds
the lock of the cell for writing, and with the change it sends the events that lead to the new
status. A build pass names the status that it found when it got the lock; its hooks have not changed
that, nor has anybody else as long as the lock is held, so it still is the status then.
-/
namespace Steward

open Steward.Action Telling World

variable {K : Kit} {α β ρ : Type}

structure Source where
  id : CellId
  name : String

namespace Source

variable (c : Source)

/-- The cell is on the bus, and has a certain status. -/
def Shows (s : Status) (w : World K) : Prop := w.sign? c.id = some ⟨c.name, true, s⟩

/-- What is known of the cell to a task. If the task holds the lock of the cell for writing, then
`hold` is the status that the cell has. -/
def Knows (hold : Option Status) (w : World K) : Prop := ∃ s, c.Shows s w ∧ ∀ p ∈ hold, p = s

/-- Where taking a lock leads. From everywhere else it does not lead on, for nobody can have a lock
besides a writer. -/
inductive Takes (cell : CellId) : Access → Option Status → Option Status → Prop
  | beside {access : Access} (hold : Option Status) (hne : cell ≠ c.id) :
      Takes cell access hold hold
  | read (heq : cell = c.id) : Takes cell .read none none
  | write (heq : cell = c.id) (s : Status) : Takes cell .write none (some s)

def leave (cell : CellId) (hold : Option Status) : Option Status :=
  if cell = c.id then none else hold

/-- What a change sends of the cell leads to the status that the cell has then. The status changes
only if the lock is held for writing, and so is an event sent. -/
inductive Changes (f : World K → World K) (v : World K) : Option Status → Option Status → Prop
  | silent (hold : Option Status) (hsends : Sends c.id f v [])
      (hsign : (f v).sign? c.id = v.sign? c.id) : Changes f v hold hold
  | telling {s s' : Status} {es : List Event} (hsends : Sends c.id f v es)
      (htells : Tells c.name s es s') (hshows : c.Shows s' (f v)) : Changes f v (some s) (some s')

variable {c} {cell : CellId} {hold hold' : Option Status}

theorem Shows.exists_cell {s : Status} {w : World K} (h : c.Shows s w) :
    ∃ d, w.cell? c.id = some d ∧ d.name = c.name ∧ d.attached = true ∧ d.standing.status = s := by
  obtain ⟨d, hd, hsign⟩ := exists_cell_of_sign? h
  simp only [Cell.sign, Sign.mk.injEq] at hsign
  exact ⟨d, hd, hsign⟩

theorem Knows.exists_cell {w : World K} (h : c.Knows hold w) :
    ∃ d, w.cell? c.id = some d ∧ d.name = c.name ∧ d.attached = true ∧
      ∀ p ∈ hold, p = d.standing.status := by
  obtain ⟨s, hs, hp⟩ := h
  obtain ⟨d, hd, hname, hattached, rfl⟩ := hs.exists_cell
  exact ⟨d, hd, hname, hattached, hp⟩

theorem Takes.reading (h : c.Takes cell .read hold hold') :
    hold' = hold ∧ c.leave cell hold = hold := by
  cases h with
  | beside hold hne => exact ⟨rfl, if_neg hne⟩
  | read heq => exact ⟨rfl, ite_self none⟩

end Source

/-- From where a task holds so much of the lock of a cell on, `p` is candid about the cell, whatever
others do with the lock; and if it ends, then holding as `post` says. -/
def Candid (c : Source) : Action K α → (α → Option Status → Prop) → Option Status → Prop
  | .done a, post, hold => post a hold
  | .call (.update f) next, post, hold => ∀ v, c.Knows hold v →
      ∃ hold', c.Changes f v hold hold' ∧ Candid c (next v) post hold'
  | .call (.invoke _) next, post, hold => ∀ v, Candid c (next v) post hold
  | .call (.acquire cell access) next, post, hold =>
      ∀ hold', c.Takes cell access hold hold' → Candid c (next ()) post hold'
  | .call (.release cell) next, post, hold => Candid c (next ()) post (c.leave cell hold)
  | .call (.rest _) next, post, hold => Candid c (next ()) post hold
  | .call (.restUnlessCancelled _) next, post, hold =>
      ∀ isCancelled, Candid c (next isCancelled) post hold
  | .call (.exit _) _, _, _ => True

section Candid

variable {c : Source} {hold : Option Status} {p : Action K α} {post : β → Option Status → Prop}

theorem Candid.mono {post post' : α → Option Status → Prop} (h : Candid c p post hold)
    (hpost : ∀ a hold', post a hold' → post' a hold') : Candid c p post' hold := by
  induction p generalizing hold with
  | done a => exact hpost a hold h
  | call effect next ih =>
    cases effect with
    | update f => exact fun v hv => (h v hv).imp fun _ h => ⟨h.1, ih v h.2⟩
    | invoke what => exact fun v => ih v (h v)
    | acquire cell access => exact fun hold' htakes => ih () (h hold' htakes)
    | release cell => exact ih () h
    | rest millis => exact ih () h
    | restUnlessCancelled millis => exact fun b => ih b (h b)
    | exit code => trivial

theorem Candid.bind {f : α → Action K β}
    (h : Candid c p (fun a hold' => Candid c (f a) post hold') hold) :
    Candid c (p >>= f) post hold := by
  induction p generalizing hold with
  | done a => exact h
  | call effect next ih =>
    cases effect with
    | update g => exact fun v hv => (h v hv).imp fun _ h => ⟨h.1, ih v h.2⟩
    | invoke what => exact fun v => ih v (h v)
    | acquire cell access => exact fun hold' htakes => ih () (h hold' htakes)
    | release cell => exact ih () h
    | rest millis => exact ih () h
    | restUnlessCancelled millis => exact fun b => ih b (h b)
    | exit code => trivial

theorem Candid.seq {f : α → Action K β} {mid : α → Option Status → Prop} (h : Candid c p mid hold)
    (hf : ∀ a hold', mid a hold' → Candid c (f a) post hold') : Candid c (p >>= f) post hold :=
  .bind (h.mono hf)

/-- A task is candid, and holds as much in the end as in the beginning. -/
def Balanced (c : Source) (hold : Option Status) (p : Action K α) : Prop :=
  Candid c p (fun _ hold' => hold' = hold) hold

theorem Balanced.seq {f : α → Action K β} (h : Balanced c hold p)
    (hf : ∀ a, Candid c (f a) post hold) : Candid c (p >>= f) post hold :=
  Candid.seq h fun a _ hhold => hhold ▸ hf a

theorem Balanced.pure (a : α) : Balanced c hold (Pure.pure a : Action K α) := rfl

theorem Balanced.interpret {ι : Type} {Answer : ι → Type} {carry : (i : ι) → Action K (Answer i)}
    (h : ∀ i, Balanced c hold (carry i)) (hook : Program Answer α) :
    Balanced c hold (hook.interpret carry) := by
  induction hook with
  | done a => rfl
  | call i next ih => exact (h i).seq ih

theorem Balanced.ite {b : Prop} [Decidable b] {q : Action K α} (hp : Balanced c hold p)
    (hq : Balanced c hold q) : Balanced c hold (if b then p else q) := by
  split
  · exact hp
  · exact hq

variable {cell : CellId} {next : Unit → Action K β} {f : World K → World K}

theorem Candid.update {k : World K → Action K β} (hf : IsSilent f)
    (h : ∀ v, c.Knows hold v → Candid c (k v) post hold) :
    Candid c (.call (Effect.update f) k) post hold := by
  intro v hv
  obtain ⟨s, hs, hp⟩ := hv
  exact ⟨hold, .silent hold (hf.sends c.id v) ((hf.sign v _ _ hs).trans hs.symm), h v ⟨s, hs, hp⟩⟩

theorem Candid.get {f : World K → α} {g : α → Action K β}
    (h : ∀ v, c.Knows hold v → Candid c (g (f v)) post hold) :
    Candid c (Action.get f >>= g) post hold := .update isSilent_id h

theorem Candid.modify (hf : IsSilent f) (h : Candid c (next ()) post hold) :
    Candid c (Action.modify f >>= next) post hold := .update hf fun _ _ => h

theorem Candid.getModify {g : World K → α} {k : α → Action K β} (hf : IsSilent f)
    (h : ∀ a, Candid c (k a) post hold) : Candid c (Action.getModify g f >>= k) post hold :=
  .update hf fun v _ => h (g v)

theorem Candid.acquire {access : Access}
    (h : ∀ hold', c.Takes cell access hold hold' → Candid c (next ()) post hold') :
    Candid c (Action.acquire cell access >>= next) post hold := h

theorem Candid.release (h : Candid c (next ()) post (c.leave cell hold)) :
    Candid c (Action.release cell >>= next) post hold := h

/-- What sends events of a cell is candid, if only a writer does so and they lead on from the status
that there is. -/
theorem candid_announces {es : Cell K → List Event} {status : Cell K → Status}
    (h : Announces cell f es status) (hhold : cell = c.id → hold.isSome)
    (htells : cell = c.id → ∀ d : Cell K, hold = some d.standing.status →
      Tells d.name d.standing.status (es d) (status d)) :
    Candid c (Action.modify f) (fun _ hold' => cell ≠ c.id → hold' = hold) hold := by
  intro v hv
  by_cases hcell : cell = c.id
  · obtain ⟨s, rfl⟩ := Option.isSome_iff_exists.1 (hhold hcell)
    obtain ⟨d, hd, hname, hattached, hstatus⟩ := hv.exists_cell
    rw [← hcell] at hd
    refine ⟨some (status d), .telling (hcell ▸ h.sends_self hd hattached) ?_ ?_,
      fun hne => absurd hcell hne⟩
    · have hdtells := htells hcell d (congrArg some (hstatus s rfl))
      rwa [hname, ← hstatus s rfl] at hdtells
    · rw [Source.Shows, h.sign v d c.id hd, if_pos hcell, hname, hattached]
  · exact ⟨hold, .silent hold (h.sends_beside hcell v) (h.sign_beside hcell v), fun _ => rfl⟩

theorem Source.Takes.balanced {hold' : Option Status} {next : α → Action K β}
    (htakes : c.Takes cell .write hold hold')
    (hp : (cell = c.id → hold'.isSome) →
      Candid c p (fun _ left => cell ≠ c.id → left = hold') hold')
    (hnext : ∀ a, Balanced c hold (next a)) :
    Candid c (do
      let a ← p
      Action.release cell
      next a) (fun _ left => left = hold) hold' := by
  cases htakes with
  | beside hold hne =>
    refine Candid.seq (hp fun hcell => absurd hcell hne) fun a left hleft => Candid.release ?_
    rw [Source.leave, if_neg hne, hleft hne]
    exact hnext a
  | write hcell s =>
    refine Candid.seq (hp fun _ => rfl) fun a left _ => Candid.release ?_
    rw [Source.leave, if_pos hcell]
    exact hnext a

theorem Candid.reading {next : Unit → Action K β}
    (h : c.leave cell hold = hold → Candid c (next ()) post hold) :
    Candid c (Action.acquire cell .read >>= next) post hold := by
  refine Candid.acquire fun hold' htakes => ?_
  obtain ⟨rfl, hleave⟩ := htakes.reading
  exact h hleave

theorem balanced_reading (f : Option (Cell K) → α) : Balanced c hold (reading cell f) :=
  Candid.reading fun hleave => Candid.get fun _ _ => Candid.release hleave

end Candid

namespace Cell

variable {c : Source} {hold : Option Status} {cell : CellId}

theorem balanced_carry (call : Hook.Call) :
    Balanced c hold (carry call : Action K call.Answer) := by
  cases call with
  | note line => exact Candid.update (isSilent_note line) fun _ _ => rfl
  | rest millis => rfl
  | statusOf other =>
    show Balanced c hold (status other)
    exact balanced_reading _
  | clock => exact Candid.update isSilent_id fun _ _ => rfl

theorem balanced_hook {ι : Type} {Answer : ι → Type} {carry : (i : ι) → Action K (Answer i)}
    (hcarry : ∀ i, Balanced c hold (carry i)) (what : Invocation) (hook : Program Answer α)
    (inner : α → Inner K) (answer : α → β) :
    Balanced c hold (do
      invoke what fun _ => ()
      let a ← hook.interpret carry
      putBack cell (inner a)
      return answer a) :=
  fun _ => (Balanced.interpret hcarry hook).seq fun _ =>
    Candid.modify (isSilent_modifyCell fun _ => rfl) rfl

theorem balanced_passMini (scope : Scope) :
    Balanced c hold (passMini cell scope : Action K _) := by
  refine Candid.get fun v _ => ?_
  split
  · exact balanced_hook balanced_carry _ _ _ _
  · rfl

theorem balanced_tearMini : Balanced c hold (tearMini cell : Action K Ending) := by
  refine Candid.get fun v _ => ?_
  split
  · exact balanced_hook balanced_carry _ _ _ _
  · rfl

/-- A pass sends which status it has found. Its hooks have not changed that, nor has anybody else as
long as the lock is held. -/
theorem candid_buildHeld {run : CellId → Scope → Action K (Scope × Ending)}
    (hrun : ∀ hold scope, Balanced c hold (run cell scope)) (hhold : cell = c.id → hold.isSome)
    (token : Token) (started : Nat) :
    Candid c (buildHeld run cell token started)
      (fun _ hold' => cell ≠ c.id → hold' = hold) hold := by
  refine Candid.get fun v hv => Candid.getModify (isSilent_modifyCell fun _ => rfl) fun name => ?_
  refine (hrun hold _).seq fun ⟨asked, ending⟩ => Candid.get fun u _ => ?_
  refine (candid_announces (announces_endBuild _ _ _ _) hhold fun hcell d hd => ?_).seq
    fun _ _ h => h
  obtain ⟨d', hd', -, -, hstatus⟩ := hv.exists_cell
  rw [hcell, hd', Option.map_some, Option.getD_some, ← hstatus _ hd]
  exact tells_built _ _ _ _ _

theorem balanced_buildWith {run : CellId → Scope → Action K (Scope × Ending)}
    (hrun : ∀ hold scope, Balanced c hold (run cell scope)) (token : Token) :
    Balanced c hold (buildWith run cell token) := by
  rw [buildWith_eq]
  refine Candid.get fun v _ => Candid.acquire fun hold' htakes => ?_
  refine htakes.balanced (fun hhold => candid_buildHeld hrun hhold token _) fun ⟨done, _⟩ => ?_
  exact Candid.modify (isSilent_armAfter _) (Balanced.ite (.pure _) (.pure _))

theorem candid_destroyHeld {hook : CellId → Action K Ending}
    (hhook : ∀ hold, Balanced c hold (hook cell)) (hhold : cell = c.id → hold.isSome) (d : Cell K) :
    Candid c (destroyHeld hook cell d) (fun _ hold' => cell ≠ c.id → hold' = hold) hold := by
  unfold destroyHeld
  split
  · exact Candid.modify (isSilent_report _) fun _ => rfl
  · refine Candid.modify (isSilent_modifyCell fun _ => rfl) ((hhook hold).seq fun ending => ?_)
    exact (candid_announces (announces_endDestroy ending) hhold fun _ d _ =>
      tells_destroyed _ _).seq fun _ _ h => h

theorem balanced_destroyWith {hook : CellId → Action K Ending}
    (hhook : ∀ hold, Balanced c hold (hook cell)) : Balanced c hold (destroyWith hook cell) := by
  rw [destroyWith_eq]
  refine Candid.modify isSilent_cancelTimer (Candid.acquire fun hold' htakes => ?_)
  refine Candid.get fun v hv => ?_
  rcases hd : v.cell? cell with _ | d
  · cases htakes with
    | beside hold hne => rfl
    | write hcell s =>
      obtain ⟨d, hd', -⟩ := hv.exists_cell
      rw [← hcell, hd] at hd'
      cases hd'
  · exact htakes.balanced (fun hhold => candid_destroyHeld hhook hhold d) fun _ => .pure ()

theorem balanced_setStatus (status : Status) :
    Balanced c hold (setStatus cell status : Action K Unit) := by
  refine Candid.acquire fun hold' htakes => ?_
  exact htakes.balanced (fun hhold => candid_announces (announces_assign status) hhold fun _ d _ =>
    tells_statusChanged _ _ _) fun _ => .pure ()

theorem balanced_carryPool (call : PoolHook.Call K.Mini) :
    Balanced c hold (carryPool call : Action K call.Answer) := by
  cases call with
  | plain call => exact balanced_carry call
  | report notice => exact Candid.update (isSilent_report notice) fun _ _ => rfl
  | enroll name mini => exact Candid.update (isSilent_addCell _) fun _ _ => rfl
  | build other token =>
    refine Candid.get fun v _ => Balanced.ite ?_ (.pure _)
    exact balanced_buildWith (fun _ => balanced_passMini) token
  | destroy other =>
    refine Candid.get fun v _ => Balanced.ite ?_ (.pure _)
    exact balanced_destroyWith fun _ => balanced_tearMini

theorem balanced_pass (scope : Scope) : Balanced c hold (pass cell scope : Action K _) := by
  refine Candid.get fun v _ => ?_
  split
  · exact balanced_hook balanced_carryPool _ _ _ _
  · exact balanced_passMini scope

theorem balanced_tear : Balanced c hold (tear cell : Action K Ending) := by
  refine Candid.get fun v _ => ?_
  split
  · exact balanced_hook balanced_carryPool _ _ _ _
  · exact balanced_tearMini

theorem balanced_attempt (name : String) (policy : Rotation.Policy) (retries attempts : Nat)
    (s : K.Service) : Balanced c hold (Rotation.attempt name policy retries attempts s) := by
  induction retries generalizing attempts s with
  | zero =>
    unfold Rotation.attempt
    refine .ite (.pure _) ((Balanced.interpret balanced_carry _).seq fun r => ?_)
    obtain ⟨s', answer⟩ := r
    cases answer <;> rfl
  | succ retries ih =>
    unfold Rotation.attempt
    refine .ite (.pure _) ((Balanced.interpret balanced_carry _).seq fun r => ?_)
    obtain ⟨s', answer⟩ := r
    cases answer with
    | transient message =>
      dsimp only
      split
      · rfl
      · exact Candid.modify (isSilent_report _) (ih _ _)
    | granted credential => rfl
    | failed message => rfl
    | panicked => rfl

theorem candid_settle (hhold : cell = c.id → hold.isSome) (finish : Rotation.Finish)
    (name : String) : Candid c (modify (finish.settle cell name) : Action K Unit)
      (fun _ hold' => cell ≠ c.id → hold' = hold) hold := by
  cases finish with
  | granted credential attempts =>
    exact candid_announces (Rotation.announces_install attempts) hhold fun _ d _ =>
      Rotation.tells_installed attempts d
  | exhausted attempts message =>
    exact candid_announces (Rotation.announces_giveUp attempts message) hhold fun _ d _ =>
      tells_rotationExhausted _ _ _
  | failed attempts message => exact Candid.update (isSilent_report _) fun _ _ _ => rfl
  | overflowed => exact Candid.update isSilent_id fun _ _ _ => rfl
  | panicked => exact Candid.update isSilent_id fun _ _ _ => rfl

theorem candid_rotateHeld (hhold : cell = c.id → hold.isSome) :
    Candid c (rotateHeld cell : Action K Rotation.Result)
      (fun _ hold' => cell ≠ c.id → hold' = hold) hold := by
  refine Candid.get fun v _ => ?_
  split
  · rename_i name service _
    refine (Balanced.interpret balanced_carry _).seq fun ⟨service', store?⟩ => ?_
    cases store? with
    | none => exact Candid.modify (isSilent_modifyCell fun _ => rfl) fun _ => rfl
    | some store =>
      dsimp only
      split
      · refine Candid.modify (isSilent_modifyCell fun _ => rfl) ?_
        exact (candid_announces (Rotation.announces_adopt store) hhold fun _ d _ =>
          tells_statusChanged _ _ _).seq fun _ _ h => h
      · refine (balanced_attempt _ _ _ _ _).seq fun ⟨service'', finish⟩ => ?_
        refine Candid.modify (isSilent_modifyCell fun _ => rfl) ?_
        exact (candid_settle hhold finish name).seq fun _ _ h => h
  · exact fun _ => rfl

theorem balanced_tick : Balanced c hold (Rotation.tick cell : Action K Rotation.Result) := by
  rw [tick_eq]
  exact Candid.acquire fun hold' htakes => htakes.balanced candid_rotateHeld fun _ => .pure _

theorem candid_enter (method : String) : Candid c (enter cell method : Action K _)
    (fun _ hold' => hold' = hold ∧ c.leave cell hold = hold) hold := by
  refine Candid.reading fun hleave => Candid.get fun v _ => ?_
  split
  · exact Candid.release ⟨hleave, hleave⟩
  · split
    · exact ⟨rfl, hleave⟩
    · exact Candid.release ⟨hleave, hleave⟩

theorem balanced_attend (method : String) (body : Cell K → Hook ρ) :
    Balanced c hold (attend cell method body) := by
  refine (candid_enter method).seq fun r hold' ⟨hhold, hleave⟩ => ?_
  subst hhold
  cases r with
  | ok d => exact (Balanced.interpret balanced_carry (body d)).seq fun _ => Candid.release hleave
  | error refusal => rfl

theorem balanced_request (r : Request K ρ) : Balanced c hold (r.run cell) := by
  cases r with
  | build token => exact balanced_buildWith (fun _ => balanced_pass) token
  | destroy => exact balanced_destroyWith fun _ => balanced_tear
  | setStatus status => exact balanced_setStatus status
  | rotate => exact balanced_tick
  | call method body => exact balanced_attend method body
  | status =>
    show Balanced c hold (status cell)
    exact balanced_reading _
  | look =>
    show Balanced c hold (look cell)
    exact balanced_reading _

end Cell

end Steward
