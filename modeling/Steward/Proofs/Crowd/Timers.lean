import Steward.Proofs.Crowd.Basic
/-!
Crowds with timers. A timer is a task of its own, of the number under which it was launched, and
goes round after round beside all others. Nothing is assumed of when it begins a round, not even
that it was not cancelled.

Of a crowd that tells many things it may be told less. Whatever it does then is what it did before,
or nothing at all.
-/
namespace Steward

open Telling

variable {K : Kit} {μ ν α β : Type}

namespace Telling

/-- A program before which something is told, if there is anything. -/
def after (word? : Option ν) (p : Telling K ν α) : Telling K ν α :=
  match word? with
  | some word => .call (Move.tell word) fun _ => p
  | none => p

def sift (f : μ → Option ν) : Telling K μ α → Telling K ν α
  | .done a => .done a
  | .call (.effect e) next => .call (Move.effect e) fun a => sift f (next a)
  | .call (.tell word) next => after (f word) (sift f (next ()))

variable {f : μ → Option ν}

@[simp] theorem sift_pure (a : α) : sift f (pure a : Telling K μ α) = pure a := rfl

@[simp] theorem sift_silent (p : Action K α) : sift f (silent p : Telling K μ α) = silent p := by
  induction p with
  | done a => rfl
  | call e next ih => exact congrArg _ (funext ih)

theorem sift_tell (word : μ) :
    sift f (tell word : Telling K μ Unit) = after (f word) (pure ()) := rfl

theorem after_bind (word? : Option ν) (p : Telling K ν α) (g : α → Telling K ν β) :
    after word? p >>= g = after word? (p >>= g) := by
  cases word? <;> rfl

@[simp] theorem sift_bind (p : Telling K μ α) (g : α → Telling K μ β) :
    sift f (p >>= g) = sift f p >>= fun a => sift f (g a) := by
  induction p with
  | done a => rfl
  | call move next ih =>
    cases move with
    | effect e => exact congrArg _ (funext ih)
    | tell word => exact (congrArg (after (f word)) (ih ())).trans (after_bind _ _ _).symm

theorem sift_relay {g : ν → μ} (h : ∀ word, f (g word) = some word) (p : Telling K ν α) :
    sift f (relay g p) = p := by
  induction p with
  | done a => rfl
  | call move next ih =>
    cases move with
    | effect e => exact congrArg _ (funext ih)
    | tell word => exact congrArg₂ after (h word) (ih ())

theorem sift_interpret {ι : Type} {Answer : ι → Type} (carry : (i : ι) → Telling K μ (Answer i))
    (p : Program Answer α) :
    sift f (p.interpret carry) = p.interpret fun i => sift f (carry i) := by
  induction p with
  | done a => rfl
  | call i next ih => exact (sift_bind _ _).trans (congrArg _ (funext ih))

end Telling

/-- What a task does next, it also does if less is told, unless it only tells what is left out. -/
theorem Moves.sift {f : μ → Option ν} {t : TaskId} {p q : Telling K μ α} {w w' : World K}
    {locks locks' : CellId → Lock} {told : List μ} (h : Moves t p w locks told q w' locks') :
    Moves t (p.sift f) w locks (told.filterMap f) (q.sift f) w' locks' ∨
      told.filterMap f = [] ∧ q.sift f = p.sift f ∧ w' = w ∧ locks' = locks := by
  cases h with
  | update => exact .inl .update
  | invoke => exact .inl .invoke
  | acquire hallows => exact .inl (.acquire hallows)
  | release => exact .inl .release
  | rest => exact .inl .rest
  | restUnlessCancelled isCancelled => exact .inl (.restUnlessCancelled isCancelled)
  | @tell word next =>
    cases hword : f word with
    | none =>
      refine .inr ⟨by rw [List.filterMap_cons_none hword, List.filterMap_nil], ?_, rfl, rfl⟩
      exact (congrArg (after · _) hword).symm
    | some word' =>
      have hnext : Telling.sift f (.call (Move.tell word) next) =
          .call (Move.tell word') fun _ => Telling.sift f (next ()) := congrArg (after · _) hword
      rw [hnext, List.filterMap_cons_some hword]
      exact .inl .tell

namespace Crowd

def sift (f : μ → Option ν) (crowd : Crowd K μ) : Crowd K ν where
  world := crowd.world
  locks := crowd.locks
  tasks t := (crowd.tasks t).sift f
  log := crowd.log.filterMap fun entry => (f entry.2).map fun word => (entry.1, word)

variable {f : μ → Option ν} {crowd crowd' quiet : Crowd K μ} {others : World K → World K → Prop}

theorem sift_tasks (crowd : Crowd K μ) (t : TaskId) :
    (crowd.sift f).tasks t = (crowd.tasks t).sift f := rfl

theorem sift_advance (t : TaskId) (told : List μ) (p : Telling K μ Unit) (w : World K)
    (locks : CellId → Lock) :
    (crowd.advance t told p w locks).sift f =
      (crowd.sift f).advance t (told.filterMap f) (p.sift f) w locks := by
  have htasks : (fun u => (Function.update crowd.tasks t p u).sift f) =
      Function.update (fun u => (crowd.tasks u).sift f) t (p.sift f) :=
    funext (Function.apply_update (fun _ p => p.sift f) crowd.tasks t p)
  have hlog : (told.map fun word => (t, word)).filterMap
      (fun entry => (f entry.2).map fun word => (entry.1, word)) =
        (told.filterMap f).map fun word => (t, word) := by
    rw [List.filterMap_map, List.map_filterMap]
    rfl
  simp only [advance, sift, htasks, List.filterMap_append, hlog]

theorem advance_self (t : TaskId) :
    crowd.advance t [] (crowd.tasks t) crowd.world crowd.locks = crowd := by
  rw [advance, Function.update_eq_self, List.map_nil, List.append_nil]

theorem Step.sift (h : Step others crowd crowd') :
    Step others (crowd.sift f) (crowd'.sift f) ∨ crowd'.sift f = crowd.sift f := by
  cases h with
  | others hw => exact .inl (.others hw)
  | task t hmoves =>
    rw [sift_advance]
    rcases hmoves.sift (f := f) with hmoves | ⟨htold, hp, rfl, rfl⟩
    · exact .inl (.task t hmoves)
    · right
      rw [htold, hp]
      exact (crowd.sift f).advance_self t

/-- A step as of any crowd, or a timer of a cell begins a round. -/
inductive Turn (others : World K → World K → Prop) (id : CellId) (round : Telling K μ Unit) :
    Crowd K μ → Crowd K μ → Prop
  | step {crowd crowd' : Crowd K μ} (h : Step others crowd crowd') :
      Turn others id round crowd crowd'
  | timer {crowd : Crowd K μ} {task : TaskId} (hlaunched : (task, id) ∈ crowd.world.launched)
      (hidle : crowd.tasks task = .done ()) :
      Turn others id round crowd (crowd.advance task [] round crowd.world crowd.locks)

/-- What a crowd with timers of a cell can come to, in any number of steps. -/
def Revolves (others : World K → World K → Prop) (id : CellId) (round : Telling K μ Unit) :
    Crowd K μ → Crowd K μ → Prop :=
  Relation.ReflTransGen (Turn others id round)

variable {id : CellId} {round : Telling K μ Unit}

theorem Revolves.induct {P : Crowd K μ → Prop} (run : Revolves others id round crowd crowd')
    (h : P crowd) (hturn : ∀ {c c'}, P c → Turn others id round c c' → P c') : P crowd' := by
  induction run with
  | refl => exact h
  | tail _ turn ih => exact hturn ih turn

theorem Becomes.revolves (run : crowd.Becomes others crowd') :
    Revolves others id round crowd crowd' :=
  Relation.ReflTransGen.mono (fun _ _ => Turn.step) _ _ run

theorem exists_becomes_done {t : TaskId} (h : (crowd.tasks t).mute = .done ()) :
    ∃ crowd', crowd.Becomes others crowd' ∧ crowd'.mute = crowd.mute ∧
      crowd'.tasks t = .done () := by
  generalize hp : crowd.tasks t = p at h
  induction p generalizing crowd with
  | done a => exact ⟨crowd, .refl, rfl, hp⟩
  | call move next ih =>
    cases move with
    | effect e => cases h
    | tell word =>
      have hmove : Moves t (crowd.tasks t) crowd.world crowd.locks [word] (next ()) crowd.world
          crowd.locks := by
        rw [hp]
        exact .tell
      have htold : (crowd.advance t [word] (next ()) crowd.world crowd.locks).mute =
          crowd.mute := by
        have hmute : silent (Telling.mute (next ())) = crowd.mute.tasks t := by
          rw [mute_tasks, hp, Telling.mute]
        rw [mute_advance, hmute]
        exact crowd.mute.advance_self t
      obtain ⟨crowd', hrun, hcrowd', hdone⟩ :=
        @ih () (crowd.advance t [word] (next ()) _ _) (Function.update_self ..) h
      exact ⟨crowd', .head (.task t hmove) hrun, hcrowd'.trans htold, hdone⟩

theorem exists_revolves_of_mute
    (run : Revolves others id (silent round.mute) crowd.mute quiet) :
    ∃ crowd', Revolves others id round crowd crowd' ∧ crowd'.mute = quiet := by
  induction run with
  | refl => exact ⟨crowd, .refl, rfl⟩
  | tail _ turn ih =>
    obtain ⟨crowd₁, hrun, rfl⟩ := ih
    cases turn with
    | step step =>
      obtain ⟨crowd₂, hrun₂, hmute⟩ :=
        exists_becomes_of_mute (.single step : crowd₁.mute.Becomes others _)
      exact ⟨crowd₂, hrun.trans hrun₂.revolves, hmute⟩
    | @timer task hlaunched hidle =>
      have hdone : (crowd₁.tasks task).mute = .done () := by
        have hmute := congrArg Telling.mute hidle
        rwa [mute_tasks, mute_silent] at hmute
      obtain ⟨crowd₂, hrun₂, hmute, hidle₂⟩ := exists_becomes_done hdone
      have hworld : crowd₂.mute.world = crowd₁.mute.world := congrArg Crowd.world hmute
      have hlocks : crowd₂.mute.locks = crowd₁.mute.locks := congrArg Crowd.locks hmute
      have hbegins : Turn others id round crowd₂ _ := .timer (hworld ▸ hlaunched) hidle₂
      refine ⟨_, (hrun.trans hrun₂.revolves).tail hbegins, ?_⟩
      rw [mute_advance, hmute]
      exact congrArg₂ (crowd₁.mute.advance task [] (silent round.mute)) hworld hlocks

end Crowd

end Steward
