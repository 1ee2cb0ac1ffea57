import Steward.Cell.Operations
/-!
Replacing a leased credential. One tick asks the secret store once or, after transient refusals,
several times; the lock of the component is held for writing all the while, so no call ever sees
half of a change. A timer repeats ticks until it is cancelled.
-/
namespace Steward.Rotation

open Steward.Action

variable {K : Kit}

inductive Result where
  /-- A fresh credential was installed. -/
  | rotated (attempts : Nat)
  /-- The secret store is down; its status was adopted and nothing rotated. -/
  | storeStatusAdopted (status : Status)
  /-- All attempts were refused; the old credential stays. -/
  | exhausted (attempts : Nat)
  /-- An attempt failed for good; the old credential stays. -/
  | failed (attempts : Nat) (message : String)
  /-- The component was destroyed. -/
  | cancelled
  /-- A hook panicked, or a wait between attempts could not be represented. -/
  | panicked
  deriving DecidableEq, Repr

@[match_pattern] abbrev Result.overflowed : Result := .panicked

inductive Finish where
  | granted (credential : Credential) (attempts : Nat)
  | exhausted (attempts : Nat) (message : String)
  | failed (attempts : Nat) (message : String)
  | overflowed
  | panicked

def attemptBound : Nat := 2 ^ 32

/-- Asks for a credential, again after each transient refusal as long as retries are left. -/
def attempt (name : String) (policy : Policy) :
    (retries : Nat) → (attempts : Nat) → K.Service → Action K (K.Service × Finish)
  | retries, attempts, s => do
    if attemptBound ≤ attempts then return (s, .overflowed)
    let (s, answer) ← (K.rotate s).interpret Cell.carry
    match answer with
    | .granted credential => return (s, .granted credential attempts)
    | .failed message => return (s, .failed attempts message)
    | .panicked => return (s, .panicked)
    | .transient message =>
      match retries with
      | 0 => return (s, .exhausted attempts message)
      | retries + 1 =>
        match policy.delay? (attempts - 1) with
        | none => return (s, .overflowed)
        | some delay =>
          report (.rotationRetrying name attempts (delay.millis % 2 ^ 64) message)
          rest delay.ticks
          attempt name policy retries (attempts + 1) s

def adopt (id : CellId) (store : Status) (w : World K) : World K :=
  match w.cell? id with
  | none => w
  | some c =>
    let previous := c.standing.status
    let w := w.modifyCell id fun c => { c with standing := c.standing.assign store }
    (w.report (.rotationSkipped c.name store)).publish id
      (.statusChanged c.name previous store)

def install (id : CellId) (attempts : Nat) (w : World K) : World K :=
  match w.cell? id with
  | none => w
  | some c =>
    let previous := c.standing.status
    let w := w.modifyCell id fun c => { c with standing := c.standing.assign .available }
    let w := w.report (.rotated c.name attempts)
    let w := w.publish id (.credentialRotated c.name (UInt32.ofNat attempts))
    if previous = .available then w
    else w.publish id (.statusChanged c.name previous .available)

def giveUp (id : CellId) (attempts : Nat) (message : String) (w : World K) : World K :=
  match w.cell? id with
  | none => w
  | some c =>
    (w.report (.rotationExhausted c.name attempts message)).publish id
      (.rotationExhausted c.name (UInt32.ofNat attempts))

def Finish.settle (finish : Finish) (id : CellId) (name : String) (w : World K) : World K :=
  match finish with
  | .granted _ attempts => install id attempts w
  | .exhausted attempts message => giveUp id attempts message w
  | .failed attempts message => w.report (.rotationFailed name attempts message)
  | .overflowed | .panicked => w

def Finish.keep (finish : Finish) (s : K.Service) : K.Service :=
  match finish with
  | .granted credential _ => K.withSlot s ((K.slot s).install credential)
  | _ => s

def Finish.result : Finish → Result
  | .granted _ attempts => .rotated attempts
  | .exhausted attempts _ => .exhausted attempts
  | .failed attempts message => .failed attempts message
  | .overflowed => .overflowed
  | .panicked => .panicked

def tickHeld (id : CellId) (name : String) (s : K.Service) : Action K Result := do
  let (s, store?) ← (K.storeStatus s).interpret Cell.carry
  match store? with
  | none =>
    Cell.putBack id (.service s)
    return .panicked
  | some store =>
    if store ≠ .available then
      Cell.putBack id (.service s)
      modify (adopt id store)
      return .storeStatusAdopted store
    else
      let policy := K.policy s
      let (s, finish) ← attempt name policy policy.maxRetry.toNat 1 s
      Cell.putBack id (.service (finish.keep s))
      modify (finish.settle id name)
      return finish.result

def undestroyed? (w : World K) (id : CellId) : Option (String × K.Service) := do
  let c ← w.cell? id
  match c.inner with
  | .service s => if c.standing.destroyed then none else some (c.name, s)
  | .mini _ => none

def tick (id : CellId) : Action K Result := do
  acquire id .write
  let found ← get fun w => undestroyed? w id
  let result ← match found with
    | some (name, s) => tickHeld id name s
    | none => pure .cancelled
  release id
  return result

def nextPeriod? (w : World K) (id : CellId) : Option (String × Span) := do
  let c ← w.cell? id
  match c.inner with
  | .service s =>
    let policy := K.policy s
    return (c.name, ← policy.period? (K.slot s).ttl (w.chance policy))
  | .mini _ => none

/-- One round of a timer: it rests for a period, and ticks. The answer tells whether another round
follows. A panic, and so a period that cannot be represented, ends the timer without a word. -/
def round (id : CellId) : Action K Bool := do
  acquire id .read
  let next ← get fun w => nextPeriod? w id
  release id
  match next with
  | none => return false
  | some (name, period) =>
    report (.rotationScheduled name period.seconds)
    if ← restUnlessCancelled period.ticks then
      report (.rotationStopped name)
      return false
    else
      match ← tick id with
      | .cancelled =>
        report (.rotationStopped name)
        return false
      | .panicked => return false
      | _ => return true

end Steward.Rotation
