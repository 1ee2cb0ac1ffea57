import Steward.Proofs.Cell.Calling
import Steward.Proofs.Crowd.Timers
import Steward.Proofs.Rotation.Upkeep
/-!
What is told of a cell that has timers. Besides all that is told of operations, a build tells which
timer it has armed, and a tick tells each time before it asks the secret store for a credential.
A timer tells of its ticks as whoever else rotates the credential.
-/
namespace Steward

open Steward.Action Telling

variable {K : Kit} {μ ν ρ : Type}

namespace Telling

@[simp] theorem mute_sift {α : Type} (f : μ → Option ν) (p : Telling K μ α) :
    mute (sift f p) = mute p := by
  induction p with
  | done a => rfl
  | call move next ih =>
    cases move with
    | effect e => exact congrArg _ (funext ih)
    | tell word =>
      show mute (after (f word) (sift f (next ()))) = mute (next ())
      rw [← ih ()]
      cases f word <;> rfl

end Telling

namespace Rotation

inductive Tiding where
  /-- What is told of operations, from the call to the return. -/
  | heard (word : Cell.Word)
  /-- A build has armed this timer. -/
  | armed (task : TaskId)
  /-- A tick is about to ask for a credential. -/
  | asks
  deriving DecidableEq

namespace Tiding

def ofMark (mark : Cell.Mark) : Tiding := .heard (.told mark)

def mark? : Tiding → Option Cell.Mark
  | .heard (.told mark) => some mark
  | _ => none

end Tiding

def attemptAsking (name : String) (policy : Policy) : (retries : Nat) → (attempts : Nat) →
    K.Service → Telling K Tiding (K.Service × Finish)
  | retries, attempts, s => do
    if attemptBound ≤ attempts then return (s, .overflowed)
    tell .asks
    let (s, answer) ← silent ((K.rotate s).interpret Cell.carry)
    match answer with
    | .granted credential => return (s, .granted credential attempts)
    | .failed message => return (s, .failed attempts message)
    | .panicked => return (s, .panicked)
    | .transient message =>
      match retries with
      | 0 => return (s, .exhausted attempts message)
      | retries + 1 =>
        match policy.delay? (attempts - 1) with
        | none => return (s, .overflowed)
        | some delay =>
          silent (report (.rotationRetrying name attempts (delay.millis % 2 ^ 64) message))
          silent (rest delay.ticks)
          attemptAsking name policy retries (attempts + 1) s

def tickHeldAsking (id : CellId) (name : String) (s : K.Service) : Telling K Tiding Result := do
  let (s, store?) ← silent ((K.storeStatus s).interpret Cell.carry)
  match store? with
  | none =>
    silent (Cell.putBack id (.service s))
    return .panicked
  | some store =>
    if store ≠ .available then
      silent (Cell.putBack id (.service s))
      silent (modify (adopt id store))
      return .storeStatusAdopted store
    else
      let policy := K.policy s
      let (s, finish) ← attemptAsking name policy policy.maxRetry.toNat 1 s
      silent (Cell.putBack id (.service (finish.keep s)))
      silent (modify (finish.settle id name))
      return finish.result

def tickFoundAsking (id : CellId) (found : Option (String × K.Service)) :
    Telling K Tiding Result :=
  match found with
  | some (name, s) => tickHeldAsking id name s
  | none => return .cancelled

def rotateHeldAsking (id : CellId) : Telling K Tiding Result := do
  let found ← silent (get fun w => undestroyed? w id)
  tickFoundAsking id found

def tickAsking (id : CellId) : Telling K Tiding Result := do
  silent (acquire id .write)
  tell (.ofMark (.begun .rotate))
  let result ← rotateHeldAsking id
  tell (.ofMark (.done .rotate (.ofTick result)))
  silent (release id)
  return result

def roundWith (tick : Telling K μ Result) (id : CellId) : Telling K μ Bool := do
  silent (acquire id .read)
  let next ← silent (get fun w => nextPeriod? w id)
  silent (release id)
  match next with
  | none => return false
  | some (name, period) =>
    silent (report (.rotationScheduled name period.seconds))
    if ← silent (restUnlessCancelled period.ticks) then
      silent (report (.rotationStopped name))
      return false
    else
      match ← tick with
      | .cancelled =>
        silent (report (.rotationStopped name))
        return false
      | .panicked => return false
      | _ => return true

/-- What a timer does in one round. -/
def roundAsking (id : CellId) : Telling K Tiding Unit := do
  let _ ← roundWith (tickAsking id) id
  return ()

def tellIf (tiding? : Option Tiding) : Telling K Tiding Unit :=
  match tiding? with
  | some tiding => tell tiding
  | none => return ()

def armed? (id : CellId) (report : Report) (w : World K) : Option TaskId :=
  if report.outcome.isUsable ∧ w.rotates? id = some true then some w.nextTask else none

def armingAfter (id : CellId) (report : Report) : Telling K Tiding Unit := do
  let w ← silent (getModify (fun w => w) (Cell.armAfter id report))
  tellIf ((armed? id report w).map .armed)

def buildArming (id : CellId) (token : Token) : Telling K Tiding (Except Fault Report) := do
  let started ← silent (get (·.now))
  let (name, report) ← relay .ofMark
    (Cell.underLock id (.build token) (Cell.buildHeld Cell.pass id token started))
  armingAfter id report
  if report.outcome.isFatal then
    return .error (.buildAborted name (report.message.getD ""))
  else return .ok report

end Rotation

open Rotation

namespace Cell.Request

def serving (id : CellId) : (r : Request K ρ) → Telling K Tiding r.Answer
  | .build token => buildArming id token
  | .rotate => tickAsking id
  | .destroy => relay .ofMark (Request.telling id (.destroy : Request K ρ))
  | .setStatus s => relay .ofMark (Request.telling id (.setStatus s : Request K ρ))
  | .call method body => relay .ofMark (Request.telling id (.call method body))
  | .status => relay .ofMark (Request.telling id (.status : Request K ρ))
  | .look => relay .ofMark (Request.telling id (.look : Request K ρ))

def tidings (id : CellId) (r : Request K ρ) : Telling K Tiding r.Answer := do
  tellIf (r.operation?.map fun op => .heard (.called op))
  let a ← r.serving id
  tellIf (r.operation?.map fun op => .heard (.returned op))
  return a

end Cell.Request

namespace Rotation

theorem sift_ofMark {α : Type} (p : Telling K Cell.Mark α) :
    sift Tiding.mark? (relay Tiding.ofMark p) = p :=
  sift_relay (f := Tiding.mark?) (g := Tiding.ofMark) (fun _ => rfl) p

theorem sift_attemptAsking (name : String) (policy : Policy) (retries attempts : Nat)
    (s : K.Service) : sift Tiding.mark? (attemptAsking name policy retries attempts s) =
      silent (attempt name policy retries attempts s) := by
  unfold attemptAsking attempt
  by_cases hbound : attemptBound ≤ attempts
  · rw [if_pos hbound, if_pos hbound]
    rfl
  · rw [if_neg hbound, if_neg hbound]
    simp only [sift_bind, sift_tell, Tiding.mark?, after, pure_bind, sift_silent, silent_bind]
    refine bind_congr ?_
    rintro ⟨s, answer⟩
    cases answer with
    | transient message =>
      cases retries with
      | zero => rfl
      | succ retries =>
        cases policy.delay? (attempts - 1) with
        | none => rfl
        | some delay =>
          simp only [sift_bind, sift_silent, silent_bind, sift_attemptAsking name policy retries]
    | _ => rfl

theorem sift_tickHeldAsking (id : CellId) (name : String) (s : K.Service) :
    sift Tiding.mark? (tickHeldAsking id name s) = silent (tickHeld id name s) := by
  simp only [tickHeldAsking, tickHeld, sift_bind, sift_silent, silent_bind]
  refine bind_congr ?_
  rintro ⟨s, store?⟩
  cases store? with
  | none => simp only [sift_bind, sift_silent, silent_bind]; rfl
  | some store =>
    dsimp only
    split
    · simp only [sift_bind, sift_silent, silent_bind]
      rfl
    · simp only [sift_bind, sift_silent, silent_bind, sift_attemptAsking]
      rfl

theorem sift_tickAsking (id : CellId) :
    sift Tiding.mark? (tickAsking id : Telling K Tiding Result) = Cell.rotateTelling id := by
  have hheld : sift Tiding.mark? (rotateHeldAsking id : Telling K Tiding Result) =
      silent (Cell.rotateHeld id) := by
    simp only [rotateHeldAsking, Cell.rotateHeld, sift_bind, sift_silent, silent_bind]
    refine bind_congr fun found => ?_
    cases found with
    | none => rfl
    | some found => exact sift_tickHeldAsking id found.1 found.2
  simp only [tickAsking, Cell.rotateTelling, Cell.underLock, sift_bind, sift_silent, hheld,
    silent_bind, bind_assoc]
  rfl

theorem sift_roundWith (f : μ → Option ν) (tick : Telling K μ Result) (id : CellId) :
    sift f (roundWith tick id) = roundWith (sift f tick) id := by
  simp only [roundWith, sift_bind, sift_silent]
  refine bind_congr fun _ => bind_congr fun next => bind_congr fun _ => ?_
  rcases next with _ | ⟨name, period⟩
  · rfl
  · simp only [sift_bind, sift_silent]
    refine bind_congr fun _ => bind_congr fun isCancelled => ?_
    cases isCancelled
    · refine (sift_bind _ _).trans (bind_congr fun result => ?_)
      cases result <;> rfl
    · rfl

theorem mute_roundWith {tick : Telling K μ Result} {id : CellId}
    (h : mute tick = Rotation.tick id) : mute (roundWith tick id) = round id := by
  simp only [roundWith, round, mute_bind, mute_silent]
  refine bind_congr fun _ => bind_congr fun next => bind_congr fun _ => ?_
  rcases next with _ | ⟨name, period⟩
  · rfl
  · simp only [mute_bind, mute_silent]
    refine bind_congr fun _ => bind_congr fun isCancelled => ?_
    cases isCancelled
    · refine (mute_bind _ _).trans ?_
      rw [h]
      refine bind_congr fun result => ?_
      cases result <;> rfl
    · rfl

theorem mute_roundAsking (id : CellId) :
    mute (roundAsking id : Telling K Tiding Unit) = do
      let _ ← round id
      return () := by
  have htick : mute (tickAsking id : Telling K Tiding Result) = tick id := by
    rw [← mute_sift Tiding.mark?, sift_tickAsking, Cell.mute_rotateTelling]
  rw [roundAsking, mute_bind, mute_roundWith htick]
  rfl

theorem sift_armingAfter (id : CellId) (report : Report) :
    sift Tiding.mark? (armingAfter id report : Telling K Tiding Unit) =
      silent (modify (Cell.armAfter id report)) := by
  refine congrArg (Program.call _) (funext fun w => ?_)
  show sift Tiding.mark? (tellIf ((armed? id report w).map .armed)) = _
  cases armed? id report w <;> rfl

theorem sift_tellIf {word? : Option Cell.Word} (h : ∀ word ∈ word?, ∀ mark, word ≠ .told mark) :
    sift Tiding.mark? (tellIf (word?.map .heard) : Telling K Tiding Unit) = pure () := by
  cases word? with
  | none => rfl
  | some word =>
    cases word with
    | told mark => exact absurd rfl (h _ rfl mark)
    | called op => rfl
    | returned op => rfl

end Rotation

namespace Cell

theorem sift_serving (id : CellId) (r : Request K ρ) :
    sift Tiding.mark? (r.serving id) = r.telling id := by
  cases r with
  | build token =>
    show sift Tiding.mark? (buildArming id token) = buildTelling id token
    simp only [buildArming, buildTelling, sift_bind, sift_silent, sift_ofMark, sift_armingAfter]
    refine bind_congr fun started => bind_congr fun done => ?_
    rw [buildAfter, silent_bind]
    refine bind_congr fun _ => ?_
    split <;> rfl
  | rotate => exact sift_tickAsking id
  | destroy => exact sift_ofMark _
  | setStatus status => exact sift_ofMark _
  | call method body => exact sift_ofMark _
  | status => exact sift_ofMark _
  | look => exact sift_ofMark _

theorem sift_tidings (id : CellId) (r : Request K ρ) :
    sift Tiding.mark? (r.tidings id) = r.telling id := by
  have hcalled (f : Operation → Word) (hf : ∀ op mark, f op ≠ .told mark) :
      sift Tiding.mark? (tellIf (r.operation?.map fun op => .heard (f op))) =
        (pure () : Telling K Mark Unit) := by
    have hwords : ∀ word ∈ r.operation?.map f, ∀ mark, word ≠ .told mark := by
      rintro word hword mark rfl
      obtain ⟨op, -, hop⟩ := Option.map_eq_some_iff.1 hword
      exact hf op mark hop
    have htell := sift_tellIf (K := K) hwords
    rwa [Option.map_map] at htell
  simp only [Request.tidings, sift_bind, hcalled .called (fun _ _ => nofun),
    hcalled .returned (fun _ _ => nofun), sift_serving, sift_pure, pure_bind, bind_pure]

theorem mute_tidings (id : CellId) (r : Request K ρ) : (r.tidings id).mute = r.run id := by
  rw [← mute_sift Tiding.mark?, sift_tidings, mute_telling]

/-- Tasks that make requests to a cell, with numbers below those of the timers to come. -/
def convene (id : CellId) (tasks : Requests K ρ) (w : World K) (locks : CellId → Lock) :
    Crowd K Tiding where
  world := w
  locks := locks
  tasks t :=
    if t < w.nextTask then silent ((tasks t).interpret (Request.run id)) else .done ()

/-- The same tasks, which tell all that there is to tell. -/
def conveneTelling (id : CellId) (tasks : Requests K ρ) (w : World K) (locks : CellId → Lock) :
    Crowd K Tiding where
  world := w
  locks := locks
  tasks t := if t < w.nextTask then (tasks t).interpret (Request.tidings id) else .done ()

theorem mute_conveneTelling (id : CellId) (tasks : Requests K ρ) (w : World K)
    (locks : CellId → Lock) :
    (conveneTelling id tasks w locks).mute = convene id tasks w locks := by
  have htasks : ∀ t, silent ((conveneTelling id tasks w locks).tasks t).mute =
      (convene id tasks w locks).tasks t := fun t => by
    simp only [conveneTelling, convene]
    split
    · simp only [mute_interpret, mute_tidings]
    · rfl
  exact congrArg (fun tasks => (⟨w, locks, tasks, []⟩ : Crowd K Tiding)) (funext htasks)

end Cell

end Steward
