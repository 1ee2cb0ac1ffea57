import Steward.Proofs.Cell.Candor
import Steward.Proofs.Cell.Gate
/-!
The stream of the events of a cell. The status that a task holds with the lock of a cell is the
status that the cell has, for only one task at a time holds a lock for writing. So all that was ever
sent of a cell leads from its first status to the one that it has, in whatever order tasks get its
lock.
-/
namespace Steward

open Steward.Action Telling World

variable {K : Kit} {μ ρ : Type}

structure InStep (c : Source) (crowd : Crowd K μ) (hold : TaskId → Option Status) (s : Status) :
    Prop where
  candid : ∀ t, Candid c (crowd.tasks t).mute (fun _ _ => True) (hold t)
  shows : c.Shows s crowd.world
  holds : ∀ t, ∀ p ∈ hold t, p = s
  writer : ∀ t, (crowd.locks c.id).writer = some t ↔ (hold t).isSome

namespace InStep

variable {c : Source} {crowd : Crowd K μ} {hold : TaskId → Option Status} {s s' : Status}
  {t : TaskId} {told : List μ} {p : Telling K μ Unit} {w : World K} {locks : CellId → Lock}
  {here : Option Status}

theorem eq_none (h : InStep c crowd hold s) (hwriter : (crowd.locks c.id).writer ≠ some t) :
    hold t = none := Option.not_isSome_iff_eq_none.1 fun hsome => hwriter ((h.writer t).2 hsome)

theorem advance (h : InStep c crowd hold s) (hcandid : Candid c p.mute (fun _ _ => True) here)
    (hshows : c.Shows s' w) (hhere : ∀ q ∈ here, q = s')
    (hrest : ∀ u, u ≠ t → ∀ q ∈ hold u, q = s')
    (hwriter : ∀ u, (locks c.id).writer = some u ↔ (Function.update hold t here u).isSome) :
    InStep c (crowd.advance t told p w locks) (Function.update hold t here) s' where
  candid u := by
    obtain rfl | hu := eq_or_ne u t
    · simpa only [Crowd.advance, Function.update_self] using hcandid
    · simpa only [Crowd.advance, Function.update_of_ne hu] using h.candid u
  shows := hshows
  holds u := by
    obtain rfl | hu := eq_or_ne u t
    · rwa [Function.update_self]
    · rw [Function.update_of_ne hu]
      exact hrest u hu
  writer := hwriter

theorem goOn (h : InStep c crowd hold s) (hcandid : Candid c p.mute (fun _ _ => True) (hold t))
    (hshows : c.Shows s w) (hwriter : (locks c.id).writer = (crowd.locks c.id).writer) :
    InStep c (crowd.advance t told p w locks) hold s := by
  have hadvance : InStep c (crowd.advance t told p w locks) (Function.update hold t (hold t)) s :=
    h.advance hcandid hshows (h.holds t) (fun u _ => h.holds u) fun u => by
      rw [Function.update_eq_self, hwriter]
      exact h.writer u
  rwa [Function.update_eq_self] at hadvance

/-- A change that a task makes sends the events that lead to the status that there is then. -/
theorem update {f : World K → World K} (h : InStep c crowd hold s)
    (hchanges : c.Changes f crowd.world (hold t) here)
    (hcandid : Candid c p.mute (fun _ _ => True) here) :
    ∃ es hold' s', World.Sends c.id f crowd.world es ∧ Tells c.name s es s' ∧
      InStep c (crowd.advance t told p (f crowd.world) crowd.locks) hold' s' := by
  generalize hthere : hold t = there at hchanges
  cases hchanges with
  | silent _ hsends hsign =>
    subst hthere
    exact ⟨[], hold, s, hsends, .nil _ s, h.goOn hcandid (hsign.trans h.shows) rfl⟩
  | telling hsends htells hshows =>
    obtain rfl := h.holds t _ hthere
    have hwriter : (crowd.locks c.id).writer = some t := (h.writer t).2 (by rw [hthere]; rfl)
    refine ⟨_, _, _, hsends, htells, h.advance hcandid hshows (fun q hq => ?_) (fun u hu q hq => ?_)
      fun u => ?_⟩
    · exact (Option.some.inj hq).symm
    · have hnone : hold u = none := h.eq_none fun hu' =>
        hu (Option.some.inj (hu'.symm.trans hwriter))
      rw [hnone] at hq
      cases hq
    · rw [h.writer u]
      obtain rfl | hu := eq_or_ne u t
      · rw [Function.update_self, hthere]
        rfl
      · rw [Function.update_of_ne hu]

theorem take {cell : CellId} {access : Access} (h : InStep c crowd hold s)
    (hallows : (crowd.locks cell).allows access = true)
    (hcandid : ∀ here, c.Takes cell access (hold t) here → Candid c p.mute (fun _ _ => True) here) :
    ∃ hold', InStep c (crowd.advance t told p crowd.world
      (Function.update crowd.locks cell ((crowd.locks cell).grant t access))) hold' s := by
  by_cases hcell : cell = c.id
  · subst hcell
    have hfree : (crowd.locks c.id).writer = none := by
      cases access <;> simp [Lock.allows] at hallows <;> simp [hallows]
    have hnone (u : TaskId) : hold u = none := h.eq_none (by simp [hfree])
    cases access with
    | read =>
      refine ⟨hold, h.goOn (hcandid _ ?_) h.shows (by rw [Function.update_self]; rfl)⟩
      rw [hnone t]
      exact .read rfl
    | write =>
      have htakes : c.Takes c.id .write (hold t) (some s) := by
        rw [hnone t]
        exact .write rfl s
      refine ⟨_, h.advance (hcandid _ htakes) h.shows (fun q hq => (Option.some.inj hq).symm)
        (fun u _ => h.holds u) fun u => ?_⟩
      rw [Function.update_self]
      obtain rfl | hu := eq_or_ne u t
      · simp [Lock.grant]
      · simp [Lock.grant, hu.symm, Function.update_of_ne hu, hnone u]
  · exact ⟨hold, h.goOn (hcandid _ (.beside _ hcell)) h.shows
      (by rw [Function.update_of_ne (Ne.symm hcell)])⟩

theorem give {cell : CellId} (h : InStep c crowd hold s)
    (hcandid : Candid c p.mute (fun _ _ => True) (c.leave cell (hold t))) :
    ∃ hold', InStep c (crowd.advance t told p crowd.world
      (Function.update crowd.locks cell ((crowd.locks cell).leave t))) hold' s := by
  by_cases hcell : cell = c.id
  · subst hcell
    rw [Source.leave, if_pos rfl] at hcandid
    refine ⟨_, h.advance hcandid h.shows (fun q hq => absurd hq (Option.not_mem_none q))
      (fun u _ => h.holds u) fun u => ?_⟩
    rw [Function.update_self]
    unfold Lock.leave
    split
    · rename_i hwriter
      obtain rfl | hu := eq_or_ne u t
      · simp
      · have hnone : hold u = none := h.eq_none (by simp [hwriter, hu.symm])
        simp [Function.update_of_ne hu, hnone]
    · rename_i hwriter
      have hnone : hold t = none := h.eq_none hwriter
      rw [← hnone, Function.update_eq_self]
      exact h.writer u
  · rw [Source.leave, if_neg hcell] at hcandid
    exact ⟨hold, h.goOn hcandid h.shows (by rw [Function.update_of_ne (Ne.symm hcell)])⟩

theorem task (h : InStep c crowd hold s)
    (hmoves : Moves t (crowd.tasks t) crowd.world crowd.locks told p w locks) :
    ∃ es hold' s', (crowd.tasks t).Sends c.id crowd.world es ∧ Tells c.name s es s' ∧
      InStep c (crowd.advance t told p w locks) hold' s' := by
  have hcandid := h.candid t
  generalize crowd.tasks t = q at hmoves hcandid
  have hquiet : ∀ {w : World K} {locks : CellId → Lock} {told : List μ} {p : Telling K μ Unit},
      (∃ hold', InStep c (crowd.advance t told p w locks) hold' s) → ∃ es hold' s', es = [] ∧
        Tells c.name s es s' ∧ InStep c (crowd.advance t told p w locks) hold' s' :=
    fun ⟨hold', h⟩ => ⟨[], hold', s, rfl, .nil _ s, h⟩
  cases hmoves with
  | update =>
    obtain ⟨here, hchanges, hnext⟩ := hcandid _ ⟨s, h.shows, h.holds t⟩
    exact h.update hchanges hnext
  | invoke => exact hquiet ⟨hold, h.goOn (hcandid _) h.shows rfl⟩
  | acquire hallows => exact hquiet (h.take hallows hcandid)
  | release => exact hquiet (h.give hcandid)
  | rest => exact hquiet ⟨hold, h.goOn hcandid h.shows rfl⟩
  | restUnlessCancelled b => exact hquiet ⟨hold, h.goOn (hcandid b) h.shows rfl⟩
  | tell => exact hquiet ⟨hold, h.goOn hcandid h.shows rfl⟩

variable {others : World K → World K → Prop} {crowd' : Crowd K μ} {es : List Event}

theorem airs (h : InStep c crowd hold s)
    (hothers : ∀ u v, others u v → ∀ sign, u.sign? c.id = some sign → v.sign? c.id = some sign)
    (run : crowd.Airs c.id others es crowd') :
    ∃ hold' s', Tells c.name s es s' ∧ InStep c crowd' hold' s' := by
  induction run with
  | start => exact ⟨hold, s, .nil _ s, h⟩
  | others _ hw ih =>
    obtain ⟨hold', s', htells, h'⟩ := ih
    exact ⟨hold', s', htells, h'.candid, hothers _ _ hw _ h'.shows, h'.holds, h'.writer⟩
  | task t _ hmoves hsends ih =>
    obtain ⟨hold', s₁, htells, h₁⟩ := ih
    obtain ⟨new, hold'', s', hnew, htells', h'⟩ := h₁.task hmoves
    obtain rfl := hsends.unique hnew
    exact ⟨hold'', s', htells.append htells', h'⟩

/-- Whatever the tasks come to, they come to it in a run of which it can be told what was sent. -/
theorem exists_airs (h : InStep c crowd hold s)
    (hothers : ∀ u v, others u v → ∀ sign, u.sign? c.id = some sign → v.sign? c.id = some sign)
    (run : crowd.Becomes others crowd') : ∃ es, crowd.Airs c.id others es crowd' := by
  induction run with
  | refl => exact ⟨[], .start⟩
  | tail _ step ih =>
    obtain ⟨es, hes⟩ := ih
    cases step with
    | others hw => exact ⟨es, hes.others hw⟩
    | task t hmoves =>
      obtain ⟨hold', s', -, h'⟩ := h.airs hothers hes
      obtain ⟨new, -, -, hnew, -⟩ := h'.task hmoves
      exact ⟨_, hes.task t hmoves hnew⟩

end InStep

/-- Events of a cell tell its status, and each that names the one before it names it rightly. -/
structure Chronicles (id : CellId) (name : String) (es : List Event) (w : World K) : Prop where
  named : ∀ e ∈ es, e.component = name
  previous : Prefixwise (fun before e => ∀ p, e.previous? = some p →
    p = before.foldl Event.replay .unavailable) es
  status : ∃ d, w.cell? id = some d ∧ d.standing.status = es.foldl Event.replay .unavailable

namespace Cell

/-- Tasks that make requests to cells, each as it likes after the answers so far. -/
abbrev Errands (K : Kit) (ρ : Type) :=
  TaskId → Program (fun errand : CellId × Request K ρ => errand.2.Answer) Unit

def assemble (tasks : Errands K ρ) (w : World K) (locks : CellId → Lock) : Crowd K Empty where
  world := w
  locks := locks
  tasks t := silent ((tasks t).interpret fun errand => errand.2.run errand.1)

section Assembling

variable {id : CellId} {d : Cell K} {w : World K} {locks : CellId → Lock}

theorem inStep_assemble (hd : w.cell? id = some d) (hattached : d.attached = true)
    (hfree : locks id = .free) (tasks : Errands K ρ) :
    InStep ⟨id, d.name⟩ (assemble tasks w locks) (fun _ => none) d.standing.status where
  candid t := by
    have hbalanced : Balanced ⟨id, d.name⟩ none
        ((tasks t).interpret fun errand => errand.2.run errand.1) :=
      .interpret (fun errand => balanced_request errand.2) (tasks t)
    simp only [assemble, mute_silent]
    exact Candid.mono hbalanced fun _ _ _ => trivial
  shows := by
    rw [Source.Shows, assemble, sign?_of_cell? hd, Cell.sign, hattached]
  holds _ := nofun
  writer t := by
    show (locks id).writer = some t ↔ _
    simp [hfree, Lock.free]

/-- However many tasks build, destroy, assign and rotate cells, call them and look at them, in
whatever order they get their locks, while the rest of the world does nothing to the status of a
cell on the bus: all that was ever sent of that cell leads from its first status to the one that it
has, and each event names the status that the events before it led to. And whatever the tasks can do
is such a run. -/
theorem events_tell_status {others : World K → World K → Prop} (hd : w.cell? id = some d)
    (hattached : d.attached = true) (hfresh : d.standing.status = .unavailable)
    (hfree : locks id = .free)
    (hothers : ∀ u v, others u v → ∀ sign, u.sign? id = some sign → v.sign? id = some sign)
    (tasks : Errands K ρ) :
    (∀ es crowd, (assemble tasks w locks).Airs id others es crowd →
      Chronicles id d.name es crowd.world) ∧
    ∀ crowd, (assemble tasks w locks).Becomes others crowd →
      ∃ es, (assemble tasks w locks).Airs id others es crowd := by
  have hbegin : InStep ⟨id, d.name⟩ (assemble tasks w locks) (fun _ => none) .unavailable :=
    hfresh ▸ inStep_assemble hd hattached hfree tasks
  refine ⟨fun es crowd run => ?_, fun crowd run => hbegin.exists_airs hothers run⟩
  obtain ⟨hold, s, ⟨hnamed, hfollows⟩, hend⟩ := hbegin.airs hothers run
  obtain ⟨d', hd', -, -, hs⟩ := hend.shows.exists_cell
  exact ⟨hnamed, hfollows.previous, d', hd', hs.trans hfollows.eq_foldl⟩

end Assembling

def assigners : Errands Rehearsal.kit Unit
  | 0 => (fun _ => ()) <$> Program.ask (0, Request.setStatus .available)
  | 1 => (fun _ => ()) <$> Program.ask (0, Request.setStatus .degraded)
  | _ => return ()

def assigned : Crowd Rehearsal.kit Empty :=
  assemble assigners { cells := #[{ api with attached := true }] } fun _ => .free

/-- The second task may be the first to get the lock, and all that is ever sent tells the status. -/
theorem events_tell_status_api :
    (∃ crowd, assigned.Airs 0 (fun v w => w = v) [.statusChanged "api" .unavailable .degraded,
      .statusChanged "api" .degraded .available] crowd) ∧
    ∀ es crowd, assigned.Airs 0 (fun v w => w = v) es crowd →
      Chronicles 0 "api" es crowd.world := by
  constructor
  · have begun : assigned.Airs 0 (fun v w => w = v) [] assigned := .start
    have first := (begun.task 1 (.acquire rfl) rfl).task 1 .update
      ((announces_assign _).sends_self rfl rfl)
    have second := ((first.task 1 .release rfl).task 0 (.acquire rfl) rfl).task 0 .update
      ((announces_assign _).sends_self rfl rfl)
    exact ⟨_, second⟩
  · exact (events_tell_status (d := { api with attached := true }) rfl rfl rfl rfl
      (fun _ _ h _ hsign => h ▸ hsign) assigners).1

end Cell

end Steward
