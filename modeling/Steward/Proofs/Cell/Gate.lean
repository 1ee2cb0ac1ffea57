import Mathlib.Data.List.Induction
import Steward.Proofs.Cell.History
import Steward.Rehearsal.Kit
/-!
The gate of a cell and its history. Whatever was done to a cell, and whatever its hooks did then,
its gate judges a call by two things only: the last build pass or teardown that took effect, and the
status that was written last.
-/
namespace Steward

open Steward.Action World

variable {K : Kit}

namespace Cell

namespace Deed

/-- Whether the hooks of a pass were run, be it one that builds or one that tears down. -/
def isPass : Deed → Bool
  | .built _ _ | .destroyed => true
  | .assigned _ | .nothing => false

def status? : Deed → Option Status
  | .built asked ending => some (ending.outcome.statusWith asked.wish)
  | .destroyed => some .unavailable
  | .assigned status => some status
  | .nothing => none

end Deed

/-- The last build pass or teardown that took effect. -/
def lastPass? (history : List Deed) : Option Deed := (history.filter Deed.isPass).getLast?

def lastStatus? (history : List Deed) : Option Status := (history.filterMap Deed.status?).getLast?

/-- The status that was assigned last since the last pass, if any was. -/
def assignedSince? (history : List Deed) : Option Status :=
  history.foldl (fun last deed => if deed.isPass then none else deed.status?.or last) none

/-- A call is let in if the last pass was one that built and did not abort, and neither it nor the
last status that was written is against the call. -/
def Admits (history : List Deed) (method : String) : Prop :=
  ∃ asked ending status, lastPass? history = some (.built asked ending) ∧
    ending.outcome ≠ .abort ∧ method ∉ asked.disabled ∧ lastStatus? history = some status ∧
    status ≠ .unavailable ∧ status ≠ .temporarilyUnavailable

/-- Why a history keeps a call out. Each reason counts only where none before it does. -/
inductive KeepsOut (name method : String) (history : List Deed) : Refusal → Prop
  | destroyed (hpass : lastPass? history = some .destroyed) :
      KeepsOut name method history (.destroyed name)
  | notBuilt (hstanding : lastPass? history ≠ some .destroyed)
      (hpass : ∀ asked ending, lastPass? history = some (.built asked ending) →
        ending.outcome = .abort) : KeepsOut name method history (.notBuilt name)
  | unavailable {asked : Scope} {ending : Ending}
      (hpass : lastPass? history = some (.built asked ending)) (hbuilt : ending.outcome ≠ .abort)
      (hstatus : lastStatus? history = some .unavailable) :
      KeepsOut name method history (.unavailable name)
  | temporarilyUnavailable {asked : Scope} {ending : Ending}
      (hpass : lastPass? history = some (.built asked ending)) (hbuilt : ending.outcome ≠ .abort)
      (hstatus : lastStatus? history = some .temporarilyUnavailable) :
      KeepsOut name method history (.temporarilyUnavailable name)
  | methodDisabled {asked : Scope} {ending : Ending} {status : Status}
      (hpass : lastPass? history = some (.built asked ending)) (hbuilt : ending.outcome ≠ .abort)
      (hstatus : lastStatus? history = some status) (hdown : status ≠ .unavailable)
      (hpaused : status ≠ .temporarilyUnavailable) (hmethod : method ∈ asked.disabled) :
      KeepsOut name method history (.methodDisabled name method)

variable {id : CellId} {history : List Deed} {s : Standing} {name method : String}

@[simp] theorem lastPass?_concat (history : List Deed) (deed : Deed) :
    lastPass? (history ++ [deed]) = if deed.isPass then some deed else lastPass? history := by
  cases h : deed.isPass <;> simp [lastPass?, h]

@[simp] theorem lastStatus?_concat (history : List Deed) (deed : Deed) :
    lastStatus? (history ++ [deed]) = deed.status?.or (lastStatus? history) := by
  cases h : deed.status? <;> simp [lastStatus?, h]

@[simp] theorem assignedSince?_concat (history : List Deed) (deed : Deed) :
    assignedSince? (history ++ [deed]) =
      if deed.isPass then none else deed.status?.or (assignedSince? history) := by
  simp [assignedSince?]

/-- The status that was written last is one that was assigned since the last pass, or else the one
that this pass wrote. -/
theorem lastStatus?_eq (history : List Deed) :
    lastStatus? history =
      (assignedSince? history).or ((lastPass? history).bind Deed.status?) := by
  induction history using List.reverseRecOn with
  | nil => rfl
  | append_singleton history deed ih =>
    cases deed <;> simp [Deed.isPass, Deed.status?, ih]

theorem exists_lastStatus {deed : Deed} (h : lastPass? history = some deed) :
    ∃ status, lastStatus? history = some status := by
  have hdeed : deed ∈ history.filter Deed.isPass := List.mem_of_getLast? h
  obtain ⟨hmem, hpass⟩ := List.mem_filter.1 hdeed
  have hstatus : ∃ status, deed.status? = some status := by
    cases deed <;> simp [Deed.isPass, Deed.status?] at hpass ⊢
  obtain ⟨status, hstatus⟩ := hstatus
  have hne : history.filterMap Deed.status? ≠ [] :=
    List.ne_nil_of_mem (List.mem_filterMap.2 ⟨deed, hmem, hstatus⟩)
  exact ⟨_, List.getLast?_eq_some_getLast hne⟩

structure Accords (history : List Deed) (s : Standing) : Prop where
  destroyed : s.destroyed = true ↔ lastPass? history = some .destroyed
  built : s.built = true ↔ ∃ asked ending,
    lastPass? history = some (.built asked ending) ∧ ending.outcome ≠ .abort
  disabled : ∀ asked ending, lastPass? history = some (.built asked ending) →
    s.disabled = asked.disabled
  status : s.status = (lastStatus? history).getD .unavailable

theorem accords_nil : Accords [] {} := by
  constructor <;> simp [lastPass?, lastStatus?]

theorem Accords.of_not_pass {deed : Deed} {s' : Standing} (h : Accords history s)
    (hdeed : deed.isPass = false) (hdestroyed : s'.destroyed = s.destroyed)
    (hbuilt : s'.built = s.built) (hdisabled : s'.disabled = s.disabled)
    (hstatus : s'.status = deed.status?.getD s.status) : Accords (history ++ [deed]) s' := by
  have hpass : lastPass? (history ++ [deed]) = lastPass? history := by simp [hdeed]
  constructor
  · rw [hdestroyed, hpass]
    exact h.destroyed
  · rw [hbuilt, hpass]
    exact h.built
  · rw [hdisabled, hpass]
    exact h.disabled
  · rw [hstatus, h.status, lastStatus?_concat]
    cases deed.status? <;> rfl

theorem Accords.does {op : Operation} {deed : Deed} {s' : Standing} (h : Accords history s)
    (hdoes : Does name op s deed s') : Accords (history ++ [deed]) s' := by
  cases hdoes with
  | @build token s asked ending elapsedMillis finishedAt hname htoken =>
    have hfatal : ending.outcome.isFatal = false ↔ ending.outcome ≠ .abort := by
      cases ending.outcome <;> simp [Outcome.isFatal]
    constructor
    · simp [Deed.isPass, Standing.endBuild]
    · simp only [lastPass?_concat, Deed.isPass, if_true, Standing.endBuild, Scope.report,
        Bool.not_eq_true', hfatal]
      constructor
      · exact fun houtcome => ⟨asked, ending, rfl, houtcome⟩
      · rintro ⟨_, _, ⟨⟩, houtcome⟩
        exact houtcome
    · intro asked' ending' hpass
      simp only [lastPass?_concat, Deed.isPass, if_true, Option.some.injEq, Deed.built.injEq]
        at hpass
      exact congrArg Scope.disabled hpass.1
    · simp [Deed.status?, Standing.endBuild, Scope.report]
  | destroy hstanding =>
    constructor <;> simp [Deed.isPass, Deed.status?, Standing.endDestroy]
  | destroyAgain hdestroyed => exact h.of_not_pass rfl rfl rfl rfl rfl
  | setStatus s status => exact h.of_not_pass rfl rfl rfl rfl rfl
  | rotate status hstanding => exact h.of_not_pass rfl rfl rfl rfl rfl
  | idle s => exact h.of_not_pass rfl rfl rfl rfl rfl

/-- What is built was built by the last pass, and by now has the status that was written last. -/
theorem Accords.of_built (h : Accords history s) (hbuilt : s.built = true) :
    ∃ asked ending, lastPass? history = some (.built asked ending) ∧ ending.outcome ≠ .abort ∧
      s.disabled = asked.disabled ∧ lastStatus? history = some s.status := by
  obtain ⟨asked, ending, hpass, houtcome⟩ := h.built.1 hbuilt
  obtain ⟨status, hlast⟩ := exists_lastStatus hpass
  have hs : s.status = status := by rw [h.status, hlast, Option.getD_some]
  exact ⟨asked, ending, hpass, houtcome, h.disabled asked ending hpass, hs ▸ hlast⟩

theorem Accords.gate_eq_ok_iff (h : Accords history s) :
    s.gate name method = .ok () ↔ Admits history method := by
  rw [Standing.gate_eq_ok_iff, Status.acceptsCalls_iff]
  constructor
  · rintro ⟨-, hbuilt, ⟨hdown, hpaused⟩, hmethod⟩
    obtain ⟨asked, ending, hpass, houtcome, hdisabled, hlast⟩ := h.of_built hbuilt
    rw [hdisabled] at hmethod
    exact ⟨asked, ending, s.status, hpass, houtcome, hmethod, hlast, hdown, hpaused⟩
  · rintro ⟨asked, ending, status, hpass, houtcome, hmethod, hlast, hdown, hpaused⟩
    have hstanding : ¬ s.destroyed = true := by
      rw [h.destroyed, hpass]
      simp
    have hs : s.status = status := by rw [h.status, hlast, Option.getD_some]
    refine ⟨Bool.eq_false_iff.2 hstanding, h.built.2 ⟨asked, ending, hpass, houtcome⟩, ?_, ?_⟩
    · rw [hs]
      exact ⟨hdown, hpaused⟩
    · rwa [h.disabled asked ending hpass]

theorem Accords.keepsOut {refusal : Refusal} (h : Accords history s)
    (hgate : s.gate name method = .error refusal) : KeepsOut name method history refusal := by
  unfold Standing.gate at hgate
  split at hgate
  · rename_i hdestroyed
    cases hgate
    exact .destroyed (h.destroyed.1 hdestroyed)
  · rename_i hstanding
    split at hgate
    · rename_i hbuilt
      cases hgate
      refine .notBuilt (fun hpass => hstanding (h.destroyed.2 hpass)) fun asked ending hpass =>
        Decidable.not_not.1 fun houtcome => ?_
      simp [h.built.2 ⟨asked, ending, hpass, houtcome⟩] at hbuilt
    · rename_i hbuilt
      obtain ⟨asked, ending, hpass, houtcome, hdisabled, hlast⟩ :=
        h.of_built (by simpa using hbuilt)
      split at hgate
      · rename_i hstatus
        cases hgate
        exact .unavailable hpass houtcome (hlast.trans (congrArg some hstatus))
      · rename_i hstatus
        cases hgate
        exact .temporarilyUnavailable hpass houtcome (hlast.trans (congrArg some hstatus))
      · rename_i hdown hpaused
        split at hgate
        · rename_i hmethod
          cases hgate
          refine .methodDisabled hpass houtcome hlast hdown hpaused ?_
          rw [← hdisabled]
          simpa using hmethod
        · cases hgate

theorem Does.built_eq {op : Operation} {deed : Deed} {s' : Standing}
    (hdoes : Does name op s deed s') (hop : (∃ status, op = .setStatus status) ∨ op = .rotate) :
    s'.built = s.built := by
  cases hdoes with
  | build ending elapsedMillis finishedAt hname htoken => simp at hop
  | destroy hstanding => simp at hop
  | _ => rfl

section Runs

variable {w : World K} {c : Cell K}

theorem meets_enter {face : Face} (hid : w.face? id = some face) (method : String) :
    Meets (working id) (enter id method) (fun _ answer _ =>
      answer.map (fun _ => ()) = face.standing.gate face.name method) w := by
  refine Meets.acquire (Meets.get fun u hu => ?_)
  obtain ⟨c, hc, rfl⟩ := exists_cell_of_face? (hu _ hid)
  rw [hc]
  dsimp only
  split
  · rename_i hgate
    exact Meets.pure fun _ _ => hgate.symm
  · rename_i refusal hgate
    exact Meets.release (Meets.pure fun _ _ => hgate.symm)

theorem meets_accords (hc : w.cell? id = some c) (hnew : c.standing = {}) (ops : List Operation) :
    Meets (working id) (recount id ops) (fun _ history v => ∃ s,
      v.face? id = some ⟨c.name, c.isMini, s⟩ ∧ Accords history s) w :=
  meets_recount_new hc hnew (fun _ _ _ _ _ _ => Accords.does) accords_nil

theorem meets_gate (hc : w.cell? id = some c) (hnew : c.standing = {}) (ops : List Operation)
    (method : String) :
    Meets (working id) (do
        let history ← recount id ops
        let answer ← enter id method
        return (history, answer)) (fun _ r _ =>
      ((∃ d, r.2 = .ok d) ↔ Admits r.1 method) ∧
        ∀ refusal, r.2 = .error refusal → KeepsOut c.name method r.1 refusal) w := by
  refine Meets.seq (meets_accords hc hnew ops) fun _ history v _ ⟨s, hv, haccords⟩ => ?_
  refine Meets.seq (meets_enter hv method) fun _ answer u _ hanswer => Meets.pure fun x hx => ?_
  dsimp only at hanswer
  constructor
  · rw [← haccords.gate_eq_ok_iff, ← hanswer]
    cases answer <;> simp [Except.map]
  · rintro refusal rfl
    exact haccords.keepsOut hanswer.symm

theorem meets_shut (hc : w.cell? id = some c) (hnew : c.standing = {}) (ops : List Operation)
    {later : List Operation} (method : String)
    (hlater : ∀ op ∈ later, (∃ status, op = .setStatus status) ∨ op = .rotate) :
    Meets (working id) (do
        let history ← recount id ops
        conduct id later
        let answer ← enter id method
        return (history, answer)) (fun _ r _ =>
      (∀ asked ending, lastPass? r.1 = some (.built asked ending) → ending.outcome = .abort) →
        ∃ refusal, r.2 = .error refusal) w := by
  simp only [← map_recount, bind_map_left]
  refine Meets.seq (meets_accords hc hnew ops) fun _ history v _ ⟨s, hv, haccords⟩ => ?_
  have hbuilt : Meets (working id) (recount id later) (fun _ _ u => ∃ s',
      u.face? id = some ⟨c.name, c.isMini, s'⟩ ∧ s'.built = s.built) v :=
    meets_recount [] (fun op hop _ _ _ _ h hdoes => (hdoes.built_eq (hlater op hop)).trans h) hv rfl
  refine Meets.seq hbuilt fun _ _ u _ ⟨s', hu, hs'⟩ => ?_
  refine Meets.seq (meets_enter hu method) fun _ answer x _ hanswer => Meets.pure fun y hy => ?_
  intro hshut
  cases answer with
  | error refusal => exact ⟨refusal, rfl⟩
  | ok d =>
    have hgate : s'.gate c.name method = .ok () := hanswer.symm
    have hopen : s.built = true := hs' ▸ (Standing.gate_eq_ok_iff.1 hgate).2.1
    obtain ⟨asked, ending, hpass, houtcome⟩ := haccords.built.1 hopen
    exact absurd (hshut asked ending hpass) houtcome

end Runs

/-- To tell what came of operations on a new cell changes nothing about them. As long as nobody else
brings the cell to stand elsewhere, a call is let in after them exactly if the history of what came
of them admits it, and is refused for the first reason that the history gives. Where the last pass
did not build, or aborted, no status that is assigned later and no rotation lets a call in. -/
theorem gate_follows_history {others : World K → World K → Prop} {w : World K} {c : Cell K}
    (hc : w.cell? id = some c) (hnew : c.standing = {})
    (hothers : ∀ u v, others u v → Spares id u v) (ops : List Operation) (method : String) :
    (fun _ => ()) <$> (recount id ops : Action K (List Deed)) = conduct id ops ∧
    Yields others (do
        let history ← recount id ops
        let answer ← enter id method
        return (history, answer)) w (fun _ r _ =>
      ((∃ d, r.2 = .ok d) ↔ Admits r.1 method) ∧
        ∀ refusal, r.2 = .error refusal → KeepsOut c.name method r.1 refusal) ∧
    ∀ later : List Operation, (∀ op ∈ later, (∃ status, op = .setStatus status) ∨ op = .rotate) →
      Yields others (do
          let history ← recount id ops
          conduct id later
          let answer ← enter id method
          return (history, answer)) w (fun _ r _ =>
        (∀ asked ending, lastPass? r.1 = some (.built asked ending) → ending.outcome = .abort) →
          ∃ refusal, r.2 = .error refusal) :=
  ⟨map_recount id ops, (meets_gate hc hnew ops method).yields hothers fun h => h,
    fun _ hlater => (meets_shut hc hnew ops method hlater).yields hothers fun h => h⟩

/-- An interface of which every build pass closes a method. -/
def api : Cell Rehearsal.kit where
  name := "api"
  inner := .service (.probe { label := "api", disable := ["send"] })

/-- It is torn down twice, told to be available in vain, and built anew. -/
def rebuilding : List Operation :=
  [.build .boot, .destroy, .destroy, .setStatus .available, .build .admin, .rotate]

def rebuilt : List Deed :=
  [.built ⟨"api", .boot, ["send"], none⟩ .ok, .destroyed, .nothing, .assigned .available,
    .built ⟨"api", .admin, ["send"], none⟩ .ok, .nothing]

/-- What came of the operations, and how a call is refused after them, if it is. -/
def afterRebuilding (method : String) : Option (List Deed × Option Refusal) :=
  (alone (do
      let history ← recount 0 rebuilding
      let answer ← enter 0 method
      return (history, answer)) { cells := #[api] }).map fun run =>
    (run.2.1.1, match run.2.1.2 with
      | .ok _ => none
      | .error refusal => some refusal)

theorem gate_follows_history_rebuilding :
    afterRebuilding "get" = some (rebuilt, none) ∧ Admits rebuilt "get" ∧
    afterRebuilding "send" = some (rebuilt, some (.methodDisabled "api" "send")) ∧
    KeepsOut "api" "send" rebuilt (.methodDisabled "api" "send") := by
  have hget : afterRebuilding "get" = some (rebuilt, none) := by decide +kernel
  have hsend : afterRebuilding "send" =
      some (rebuilt, some (.methodDisabled "api" "send")) := by decide +kernel
  have hgate (method : String) := (gate_follows_history (c := api) (w := { cells := #[api] }) rfl
    rfl (fun u v (h : Spares 0 u v) => h) rebuilding method).2.1
  refine ⟨hget, ?_, hsend, ?_⟩
  · obtain ⟨⟨calls, ⟨history, answer⟩, v⟩, hrun, heq⟩ := Option.map_eq_some_iff.1 hget
    have hpost := ((hgate "get") calls _ v (runs_alone hrun)).2 _ rfl
    obtain ⟨rfl, hanswer⟩ := Prod.mk.inj heq
    cases answer with
    | ok d => exact hpost.1.1 ⟨d, rfl⟩
    | error refusal => cases hanswer
  · obtain ⟨⟨calls, ⟨history, answer⟩, v⟩, hrun, heq⟩ := Option.map_eq_some_iff.1 hsend
    have hpost := ((hgate "send") calls _ v (runs_alone hrun)).2 _ rfl
    obtain ⟨rfl, hanswer⟩ := Prod.mk.inj heq
    cases answer with
    | ok d => cases hanswer
    | error refusal => exact Option.some.inj hanswer ▸ hpost.2 refusal rfl

end Cell

end Steward
