import Steward.Proofs.Cell.Guarding
/-!
The attempts of a tick, counted. A tick may be told to answer all that it was answered and how long
it waited, which changes nothing about it.
-/
namespace Steward.Rotation

open Steward.Action World

variable {K : Kit}

/-- What a tick was answered: the status of the secret store, if that could be looked up, and what
each attempt gave. And how long it waited after each attempt but the last. -/
structure Account where
  store : Option Status := none
  answers : List Attempt := []
  waits : List Span := []

def attemptTold (name : String) (policy : Policy) : (retries : Nat) → (attempts : Nat) →
    K.Service → Action K ((K.Service × Finish) × List Attempt × List Span)
  | retries, attempts, s => do
    if attemptBound ≤ attempts then return ((s, .overflowed), [], [])
    let (s, answer) ← (K.rotate s).interpret Cell.carry
    match answer with
    | .granted credential => return ((s, .granted credential attempts), [answer], [])
    | .failed message => return ((s, .failed attempts message), [answer], [])
    | .panicked => return ((s, .panicked), [answer], [])
    | .transient message =>
      match retries with
      | 0 => return ((s, .exhausted attempts message), [answer], [])
      | retries + 1 =>
        match policy.delay? (attempts - 1) with
        | none => return ((s, .overflowed), [answer], [])
        | some delay =>
          report (.rotationRetrying name attempts (delay.millis % 2 ^ 64) message)
          rest delay.ticks
          let (held, answers, waits) ← attemptTold name policy retries (attempts + 1) s
          return (held, answer :: answers, delay :: waits)

def tickHeldTold (id : CellId) (name : String) (s : K.Service) : Action K (Result × Account) := do
  let (s, store?) ← (K.storeStatus s).interpret Cell.carry
  match store? with
  | none =>
    Cell.putBack id (.service s)
    return (.panicked, {})
  | some store =>
    if store ≠ .available then
      Cell.putBack id (.service s)
      modify (adopt id store)
      return (.storeStatusAdopted store, { store })
    else
      let policy := K.policy s
      let ((s, finish), answers, waits) ← attemptTold name policy policy.maxRetry.toNat 1 s
      Cell.putBack id (.service (finish.keep s))
      modify (finish.settle id name)
      return (finish.result, ⟨some store, answers, waits⟩)

/-- A tick that tells what it was answered. -/
def tickTold (id : CellId) : Action K (Result × Account) := do
  acquire id .write
  let found ← get fun w => undestroyed? w id
  let told ← match found with
    | some (name, s) => tickHeldTold id name s
    | none => pure (.cancelled, {})
  release id
  return told

theorem map_attemptTold (name : String) (policy : Policy) (retries attempts : Nat)
    (s : K.Service) : (·.1) <$> attemptTold name policy retries attempts s =
      attempt name policy retries attempts s := by
  unfold attemptTold attempt
  by_cases hbound : attemptBound ≤ attempts
  · rw [if_pos hbound, if_pos hbound]
    rfl
  · rw [if_neg hbound, if_neg hbound, map_bind]
    refine bind_congr ?_
    rintro ⟨s, answer⟩
    cases answer with
    | transient message =>
      cases retries with
      | zero => rfl
      | succ retries =>
        cases policy.delay? (attempts - 1) with
        | none => rfl
        | some delay =>
          simp only [map_bind, map_pure, ← map_attemptTold name policy retries]
          simp only [map_eq_pure_bind]
    | _ => rfl

theorem map_tickHeldTold (id : CellId) (name : String) (s : K.Service) :
    (·.1) <$> tickHeldTold id name s = tickHeld id name s := by
  simp only [tickHeldTold, tickHeld, map_bind]
  refine bind_congr ?_
  rintro ⟨s, store?⟩
  cases store? with
  | none => simp only [map_bind, map_pure]
  | some store =>
    dsimp only
    split
    · simp only [map_bind, map_pure]
    · rw [← map_attemptTold]
      simp only [map_bind, map_pure, bind_map_left]

theorem map_tickTold (id : CellId) : (·.1) <$> (tickTold id : Action K _) = tick id := by
  simp only [tickTold, tick, map_bind]
  refine bind_congr fun _ => bind_congr fun found => ?_
  rcases found with _ | ⟨name, s⟩
  · simp only [pure_bind, map_bind, map_pure]
  · simp only [map_bind, map_pure, ← map_tickHeldTold, bind_map_left]

def Attempt.IsTransient (a : Attempt) : Prop := ∃ message, a = .transient message

/-- How attempts end before which so many were refused and after the first of which so many may
follow: what each of them gave, and the waits between them. -/
inductive Attempted (policy : Policy) :
    (retries refused : Nat) → List Attempt → List Span → Finish → Prop
  | granted {retries refused : Nat} (credential : Credential) :
      Attempted policy retries refused [.granted credential] [] (.granted credential (refused + 1))
  | failed {retries refused : Nat} (message : String) :
      Attempted policy retries refused [.failed message] [] (.failed (refused + 1) message)
  | panicked {retries refused : Nat} :
      Attempted policy retries refused [.panicked] [] .panicked
  | exhausted {refused : Nat} (message : String) :
      Attempted policy 0 refused [.transient message] [] (.exhausted (refused + 1) message)
  | again {retries refused : Nat} {answers : List Attempt} {waits : List Span} {finish : Finish}
      {delay : Span} (message : String) (hdelay : policy.delay? refused = some delay)
      (rest : Attempted policy retries (refused + 1) answers waits finish) :
      Attempted policy (retries + 1) refused (.transient message :: answers) (delay :: waits) finish

/-- A class of components that rotate. Only ticks replace a credential: neither looking up the
store nor asking it for a credential does so. -/
structure Rotating (rotates : K.Service → Prop) : Prop where
  slot_withSlot : ∀ {s}, rotates s → ∀ slot, K.slot (K.withSlot s slot) = slot
  storeStatus : ∀ {s}, rotates s → (K.storeStatus s).Asks .univ fun r =>
    rotates r.1 ∧ K.slot r.1 = K.slot s ∧ K.policy r.1 = K.policy s
  rotate : ∀ {s}, rotates s → (K.rotate s).Asks .univ fun r =>
    rotates r.1 ∧ K.slot r.1 = K.slot s

variable {policy : Policy} {rotates : K.Service → Prop} {w : World K} {id : CellId}

theorem meets_attemptTold (hK : Rotating rotates) (name : String) {retries refused : Nat}
    (hbound : refused + 1 + retries < attemptBound)
    (hdelays : ∀ i < refused + retries, (policy.delay? i).isSome = true) {s : K.Service}
    (hs : rotates s) {w : World K} :
    Meets (Cell.guarding id) (attemptTold name policy retries (refused + 1) s)
      (fun _ (held, answers, waits) _ => Attempted policy retries refused answers waits held.2 ∧
        rotates held.1 ∧ K.slot held.1 = K.slot s) w := by
  unfold attemptTold
  rw [if_neg (by omega)]
  refine Meets.seq (Cell.guards_hook (hK.rotate hs)) fun _ ⟨s', answer⟩ v _ ⟨hs', hslot⟩ => ?_
  cases answer with
  | granted credential => exact Meets.pure fun _ _ => ⟨.granted credential, hs', hslot⟩
  | failed message => exact Meets.pure fun _ _ => ⟨.failed message, hs', hslot⟩
  | panicked => exact Meets.pure fun _ _ => ⟨.panicked, hs', hslot⟩
  | transient message =>
    cases retries with
    | zero => exact Meets.pure fun _ _ => ⟨.exhausted message, hs', hslot⟩
    | succ retries =>
      obtain ⟨delay, hdelay⟩ := Option.isSome_iff_exists.1 (hdelays refused (by omega))
      dsimp only
      rw [Nat.add_sub_cancel, hdelay]
      refine Meets.report fun x _ => ⟨guards_of_eq (bare?_report x _), ?_⟩
      have hbound' : refused + 1 + 1 + retries < attemptBound := by omega
      have hdelays' : ∀ i < refused + 1 + retries, (policy.delay? i).isSome = true :=
        fun i hi => hdelays i (by omega)
      refine Meets.seq (p := attemptTold name policy retries (refused + 1 + 1) s')
        (meets_attemptTold hK name hbound' hdelays' hs') ?_
      rintro _ ⟨held, answers, waits⟩ y _ ⟨hrest, hheld, hsame⟩
      exact Meets.pure fun _ _ => ⟨.again message hdelay hrest, hheld, hsame.trans hslot⟩

section Answers

variable {retries refused : Nat} {answers : List Attempt} {waits : List Span} {finish : Finish}
  {r : Nat → Attempt}

theorem Attempted.length_answers (h : Attempted policy retries refused answers waits finish) :
    answers.length = waits.length + 1 := by
  induction h with
  | again message hdelay _ ih => rw [List.length_cons, List.length_cons, ih]
  | _ => rfl

theorem Attempted.waits_eq (h : Attempted policy retries refused answers waits finish) :
    waits.map some = (List.range waits.length).map fun i => policy.delay? (refused + i) := by
  induction h with
  | @again _ refused _ _ _ _ _ hdelay _ ih =>
    rw [List.map_cons, ih, List.length_cons, List.range_succ_eq_map, List.map_cons, List.map_map]
    refine congrArg₂ List.cons hdelay.symm (List.map_congr_left fun i _ => ?_)
    show policy.delay? (refused + 1 + i) = policy.delay? (refused + (i + 1))
    rw [Nat.add_assoc, Nat.add_comm 1 i]
  | _ => rfl

structure Closes (r : Nat → Attempt) (retries refused last : Nat) (finish : Finish) : Prop where
  transient : ∀ i, refused < i → i < last → (r i).IsTransient
  lt : refused < last
  le : last ≤ refused + retries + 1
  finish : (∃ credential, r last = .granted credential ∧ finish = .granted credential last) ∨
    (∃ message, r last = .failed message ∧ finish = .failed last message) ∨
    ∃ message, r last = .transient message ∧ finish = .exhausted last message ∧
      last = refused + retries + 1

theorem Attempted.closes (h : Attempted policy retries refused answers waits finish)
    (hr : ∀ i a, answers[i]? = some a → r (refused + 1 + i) = a) (hpanics : ∀ i, r i ≠ .panicked) :
    Closes r retries refused (refused + answers.length) finish := by
  induction h with
  | @granted retries refused credential =>
    exact ⟨fun i _ _ => by simp at *; omega, by simp, by simp,
      .inl ⟨credential, hr 0 _ rfl, rfl⟩⟩
  | @failed retries refused message =>
    exact ⟨fun i _ _ => by simp at *; omega, by simp, by simp,
      .inr (.inl ⟨message, hr 0 _ rfl, rfl⟩)⟩
  | panicked => exact absurd (hr 0 _ rfl) (hpanics _)
  | @exhausted refused message =>
    exact ⟨fun i _ _ => by simp at *; omega, by simp, by simp,
      .inr (.inr ⟨message, hr 0 _ rfl, rfl, rfl⟩)⟩
  | @again retries refused answers _ _ _ message _ _ ih =>
    have hlater : ∀ i a, answers[i]? = some a → r (refused + 1 + 1 + i) = a := fun i a ha => by
      rw [Nat.add_assoc _ 1 i, Nat.add_comm 1 i]
      exact hr (i + 1) a ha
    obtain ⟨htransient, hlt, hle, hfinish⟩ := ih hlater
    have hfirst : r (refused + 1) = .transient message := hr 0 _ rfl
    rw [List.length_cons, Nat.add_comm answers.length 1, ← Nat.add_assoc]
    refine ⟨fun i hi hlast => ?_, by omega, by omega, ?_⟩
    · rcases Nat.eq_or_lt_of_le hi with rfl | hi
      · exact ⟨message, hfirst⟩
      · exact htransient i hi hlast
    · have hsum : refused + 1 + retries + 1 = refused + (retries + 1) + 1 := by omega
      rwa [hsum] at hfinish

/-- An attempt of this number is made: all before it are refused, and retries are left. -/
def Reaches (retries : Nat) (r : Nat → Attempt) (k : Nat) : Prop :=
  1 ≤ k ∧ k ≤ retries + 1 ∧ ∀ i, 1 ≤ i → i < k → (r i).IsTransient

theorem Closes.reaches {last : Nat} (h : Closes r retries 0 last finish) : Reaches retries r last :=
  ⟨h.lt, by simpa using h.le, fun i hi => h.transient i hi⟩

theorem Closes.reaches_iff {last k : Nat} {a : Attempt} (h : Closes r retries 0 last finish)
    (ha : ¬ a.IsTransient) : Reaches retries r k ∧ r k = a ↔ k = last ∧ r last = a := by
  constructor
  · rintro ⟨⟨hpos, hle, htransient⟩, rfl⟩
    rcases Nat.lt_trichotomy k last with hlt | rfl | hgt
    · exact absurd (h.transient k hpos hlt) ha
    · exact ⟨rfl, rfl⟩
    · obtain ⟨message, hmessage⟩ := htransient last h.lt hgt
      rcases h.finish with ⟨credential, hlast, -⟩ | ⟨message', hlast, -⟩ | ⟨_, -, -, hlast⟩
      · cases hlast.symm.trans hmessage
      · cases hlast.symm.trans hmessage
      · omega
  · rintro ⟨rfl, hr⟩
    exact ⟨h.reaches, hr⟩

def Result.attempts? : Result → Option Nat
  | .rotated attempts | .exhausted attempts | .failed attempts _ => some attempts
  | .storeStatusAdopted _ | .cancelled | .panicked => none

structure Judges (retries : Nat) (r : Nat → Attempt) (result : Result) (made : Nat) : Prop where
  attempts : result.attempts? = some made
  rotated : ∀ k, result = .rotated k ↔
    Reaches retries r k ∧ ∃ credential, r k = .granted credential
  failed : ∀ k message, result = .failed k message ↔
    Reaches retries r k ∧ r k = .failed message
  exhausted : ∀ k, result = .exhausted k ↔
    k = retries + 1 ∧ ∀ i, 1 ≤ i → i ≤ k → (r i).IsTransient

end Answers

end Steward.Rotation
