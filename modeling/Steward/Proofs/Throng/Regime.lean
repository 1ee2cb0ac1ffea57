import Steward.Proofs.Throng.Line
/-!
What tasks in a throng keep to. Each task stands at some stage, and rules say what it may do there:
how it may change the world, which code it may come to, which locks it may ask for, and at what
stage it stands afterwards. A program follows the rules if it does so whatever all others do on the
way; then a throng of such programs does nothing but what the rules allow.
-/
namespace Steward

variable {K : Kit} {Ω σ α β : Type}

structure Regime (K : Kit) (Ω σ : Type) where
  world : Ω → World K
  /-- How what there is may change while a task does nothing. -/
  later : Ω → Ω → Prop
  /-- How a task may change what there is, and at what stage it stands before and after. -/
  changes : σ → Ω → σ → Ω → Prop
  invokes : σ → Invocation → Ω → Prop
  takes : σ → CellId → Ω → Prop
  gives : σ → CellId → Ω → Prop
  /-- The stage of a task that has got a lock. -/
  take : σ → CellId → σ
  /-- The stage of a task that has given up a lock. -/
  give : σ → CellId → σ
  later_refl : ∀ o, later o o
  later_trans : ∀ {o o' o''}, later o o' → later o' o'' → later o o''
  later_of_changes : ∀ {s o s' o'}, changes s o s' o' → later o o'
  changes_refl : ∀ s o, changes s o s o

namespace Regime

/-- From a stage on, a program does what the rules allow, and if it ends, its stage, its answer and
what there is are as `post` says. -/
def Follows (R : Regime K Ω σ) : Action K α → (σ → α → Ω → Prop) → σ → Ω → Prop
  | .done a, post, s, o => ∀ o', R.later o o' → post s a o'
  | .call (.update f) next, post, s, o =>
    ∀ o', R.later o o' → ∃ s' o'', R.world o'' = f (R.world o') ∧ R.changes s o' s' o'' ∧
      Follows R (next (R.world o')) post s' o''
  | .call (.invoke what) next, post, s, o =>
    ∀ o', R.later o o' → R.invokes s what o' ∧ Follows R (next (R.world o')) post s o'
  | .call (.acquire cell _) next, post, s, o =>
    ∀ o', R.later o o' → R.takes s cell o' ∧ Follows R (next ()) post (R.take s cell) o'
  | .call (.release cell) next, post, s, o =>
    ∀ o', R.later o o' → R.gives s cell o' ∧ Follows R (next ()) post (R.give s cell) o'
  | .call (.rest _) next, post, s, o =>
    ∀ o', R.later o o' → Follows R (next ()) post s o'
  | .call (.restUnlessCancelled _) next, post, s, o =>
    ∀ o', R.later o o' → ∀ isCancelled, Follows R (next isCancelled) post s o'
  | .call (.exit _) _, _, _, _ => True

variable {R : Regime K Ω σ} {p : Action K α} {post post' : σ → α → Ω → Prop} {s : σ} {o o' : Ω}

theorem Follows.later (h : R.Follows p post s o) (ho : R.later o o') : R.Follows p post s o' := by
  cases p with
  | done a => exact fun u hu => h u (R.later_trans ho hu)
  | call effect next =>
    cases effect with
    | exit code => trivial
    | _ => exact fun u hu => h u (R.later_trans ho hu)

theorem Follows.mono (h : R.Follows p post s o)
    (hpost : ∀ s' a o', R.later o o' → post s' a o' → post' s' a o') :
    R.Follows p post' s o := by
  induction p generalizing s o with
  | done a => exact fun u hu => hpost s a u hu (h u hu)
  | call effect next ih =>
    cases effect with
    | update f =>
      intro u hu
      obtain ⟨s', x, hworld, hchanges, hnext⟩ := h u hu
      have hx := R.later_trans hu (R.later_of_changes hchanges)
      exact ⟨s', x, hworld, hchanges,
        ih _ hnext fun s' a o' ho' => hpost s' a o' (R.later_trans hx ho')⟩
    | invoke what =>
      exact fun u hu => ⟨(h u hu).1, ih _ (h u hu).2 fun s' a o' ho' =>
        hpost s' a o' (R.later_trans hu ho')⟩
    | acquire cell access =>
      exact fun u hu => ⟨(h u hu).1, ih _ (h u hu).2 fun s' a o' ho' =>
        hpost s' a o' (R.later_trans hu ho')⟩
    | release cell =>
      exact fun u hu => ⟨(h u hu).1, ih _ (h u hu).2 fun s' a o' ho' =>
        hpost s' a o' (R.later_trans hu ho')⟩
    | rest millis =>
      exact fun u hu => ih _ (h u hu) fun s' a o' ho' => hpost s' a o' (R.later_trans hu ho')
    | restUnlessCancelled millis =>
      exact fun u hu b => ih _ (h u hu b) fun s' a o' ho' =>
        hpost s' a o' (R.later_trans hu ho')
    | exit code => trivial

theorem Follows.bind {f : α → Action K β} {post : σ → β → Ω → Prop}
    (h : R.Follows p (fun s a o => R.Follows (f a) post s o) s o) :
    R.Follows (p.bind f) post s o := by
  induction p generalizing s o with
  | done a => exact h o (R.later_refl o)
  | call effect next ih =>
    cases effect with
    | update g =>
      intro u hu
      obtain ⟨s', x, hworld, hchanges, hnext⟩ := h u hu
      exact ⟨s', x, hworld, hchanges, ih _ hnext⟩
    | invoke what => exact fun u hu => ⟨(h u hu).1, ih _ (h u hu).2⟩
    | acquire cell access => exact fun u hu => ⟨(h u hu).1, ih _ (h u hu).2⟩
    | release cell => exact fun u hu => ⟨(h u hu).1, ih _ (h u hu).2⟩
    | rest millis => exact fun u hu => ih _ (h u hu)
    | restUnlessCancelled millis => exact fun u hu b => ih _ (h u hu b)
    | exit code => trivial

section Effects

variable {f : World K → α} {g : α → Action K β} {next : Unit → Action K β}
  {post : σ → β → Ω → Prop}

theorem Follows.seq {mid : σ → α → Ω → Prop} (h : R.Follows p mid s o)
    (hnext : ∀ s' a o', R.later o o' → mid s' a o' → R.Follows (g a) post s' o') :
    R.Follows (p >>= g) post s o :=
  Follows.bind (h.mono hnext)

theorem Follows.pure {a : α} {post : σ → α → Ω → Prop} (h : ∀ o', R.later o o' → post s a o') :
    R.Follows (pure a) post s o := h

theorem Follows.get (h : ∀ o', R.later o o' → R.Follows (g (f (R.world o'))) post s o') :
    R.Follows (Action.get f >>= g) post s o :=
  fun o' ho => ⟨s, o', rfl, R.changes_refl s o', h o' ho⟩

theorem Follows.modify {f : World K → World K}
    (h : ∀ o', R.later o o' → ∃ s' o'', R.world o'' = f (R.world o') ∧ R.changes s o' s' o'' ∧
      R.Follows (next ()) post s' o'') : R.Follows (Action.modify f >>= next) post s o := h

theorem Follows.getModify {change : World K → World K}
    (h : ∀ o', R.later o o' → ∃ s' o'', R.world o'' = change (R.world o') ∧
      R.changes s o' s' o'' ∧ R.Follows (g (f (R.world o'))) post s' o'') :
    R.Follows (Action.getModify f change >>= g) post s o := h

theorem Follows.invoke {what : Invocation}
    (h : ∀ o', R.later o o' → R.invokes s what o' ∧ R.Follows (g (f (R.world o'))) post s o') :
    R.Follows (Action.invoke what f >>= g) post s o := h

theorem Follows.acquire {cell : CellId} {access : Access}
    (h : ∀ o', R.later o o' → R.takes s cell o' ∧ R.Follows (next ()) post (R.take s cell) o') :
    R.Follows (Action.acquire cell access >>= next) post s o := h

theorem Follows.release {cell : CellId}
    (h : ∀ o', R.later o o' → R.gives s cell o' ∧ R.Follows (next ()) post (R.give s cell) o') :
    R.Follows (Action.release cell >>= next) post s o := h

theorem Follows.rest {millis : Nat} (h : R.Follows (next ()) post s o) :
    R.Follows (Action.rest millis >>= next) post s o := fun _ => h.later

theorem Follows.restUnlessCancelled {millis : Nat} {g : Bool → Action K β}
    (h : ∀ isCancelled, R.Follows (g isCancelled) post s o) :
    R.Follows (Action.restUnlessCancelled millis >>= g) post s o :=
  fun _ ho isCancelled => (h isCancelled).later ho

theorem Follows.of_bind_pure {post : σ → α → Ω → Prop}
    (h : R.Follows (p >>= Pure.pure) post s o) : R.Follows p post s o := by
  rwa [bind_pure] at h

theorem Follows.ite {b : Prop} [Decidable b] {q : Action K α} {post : σ → α → Ω → Prop}
    (hp : b → R.Follows p post s o) (hq : ¬ b → R.Follows q post s o) :
    R.Follows (if b then p else q) post s o := by
  split
  · exact hp ‹_›
  · exact hq ‹_›

end Effects

end Regime

namespace Throng

variable {R : Regime K Ω σ} {post : TaskId → σ → α → Ω → Prop} {g g' : Throng K α}
  {stages : TaskId → σ} {o : Ω} {others : World K → World K → Prop}

structure Governed (R : Regime K Ω σ) (post : TaskId → σ → α → Ω → Prop) (g : Throng K α)
    (stages : TaskId → σ) (o : Ω) : Prop where
  world : R.world o = g.world
  follows : ∀ t, R.Follows (g.tasks t) (post t) (stages t) o

theorem Governed.post_of_done {t : TaskId} {a : α} (h : Governed R post g stages o)
    (ht : g.tasks t = .done a) : post t (stages t) a o := by
  have hfollows := h.follows t
  rw [ht] at hfollows
  exact hfollows o (R.later_refl o)

theorem Governed.takes_of_isInLine {t : TaskId} {cell : CellId} (h : Governed R post g stages o)
    (hg : g.Orderly) (hline : IsInLine (g.locks cell) t) : R.takes (stages t) cell o := by
  obtain ⟨access, hmem⟩ := isInLine_iff.1 hline
  obtain ⟨next, ht⟩ := exists_next_of_wanted? (hg.wanted cell t access hmem)
  have hfollows := h.follows t
  rw [ht] at hfollows
  exact (hfollows o (R.later_refl o)).1

theorem Governed.invokes_of_called? {t : TaskId} {what : Invocation}
    (h : Governed R post g stages o) (hcall : called? (g.tasks t) = some what) :
    R.invokes (stages t) what o := by
  obtain ⟨next, ht⟩ := exists_next_of_called? hcall
  have hfollows := h.follows t
  rw [ht] at hfollows
  exact (hfollows o (R.later_refl o)).1

inductive Happens (R : Regime K Ω σ) (g : Throng K α) (stages : TaskId → σ) (o : Ω) :
    Throng K α → (TaskId → σ) → Ω → Prop
  | rests (t : TaskId) (p : Action K α) (idle : wanted? (g.tasks t) = none) :
      Happens R g stages o (g.setTask t p) stages o
  | changes (t : TaskId) (p : Action K α) {w : World K} {s : σ} {o' : Ω}
      (idle : wanted? (g.tasks t) = none) (changes : R.changes (stages t) o s o') :
      Happens R g stages o { g.setTask t p with world := w } (Function.update stages t s) o'
  | invokes (t : TaskId) (p : Action K α) {what : Invocation}
      (idle : wanted? (g.tasks t) = none) (invokes : R.invokes (stages t) what o) :
      Happens R g stages o { g.setTask t p with log := g.log ++ [(t, what)] } stages o
  | enters (t : TaskId) (p : Action K α) {cell : CellId} {access : Access}
      (wants : wanted? (g.tasks t) = some (cell, access)) (takes : R.takes (stages t) cell o)
      (meets : (g.locks cell).meets access = true) :
      Happens R g stages o ((g.setTask t p).setLock cell ((g.locks cell).grant t access))
        (Function.update stages t (R.take (stages t) cell)) o
  | linesUp (t : TaskId) {cell : CellId} {access : Access}
      (wants : wanted? (g.tasks t) = some (cell, access)) (takes : R.takes (stages t) cell o)
      (apart : ¬ IsInLine (g.locks cell) t) (waits : (g.locks cell).meets access = false) :
      Happens R g stages o (g.setLock cell ((g.locks cell).request t access)) stages o
  | gives (t : TaskId) (p : Action K α) {cell : CellId} (idle : wanted? (g.tasks t) = none)
      (gives : R.gives (stages t) cell o) :
      Happens R g stages o
        (((g.setTask t p).setLock cell ((g.locks cell).release t).1).letIn
          ((g.locks cell).release t).2)
        (fun u => if u ∈ ((g.locks cell).release t).2 then R.take (stages u) cell
          else Function.update stages t (R.give (stages t) cell) u) o

theorem Governed.update (h : Governed R post g stages o) {t : TaskId} {p : Action K α} {s : σ}
    {o' : Ω} (ho : R.later o o') (hp : R.Follows p (post t) s o') (u : TaskId) :
    R.Follows ((g.setTask t p).tasks u) (post u) (Function.update stages t s u) o' := by
  rw [tasks_setTask, Function.update_apply]
  split
  · subst u
    exact hp
  · exact (h.follows u).later ho

theorem Governed.advance {t : TaskId} {isCancelled : Bool} (h : Governed R post g stages o)
    (hg : g.Orderly) (hadvance : g.advance t isCancelled = some g') :
    ∃ stages' o', Governed R post g' stages' o' ∧ Happens R g stages o g' stages' o' := by
  have hrefl := R.later_refl o
  have hfollows := h.follows t
  have hsame (p : Action K α) (hp : R.Follows p (post t) (stages t) o) (u : TaskId) :
      R.Follows ((g.setTask t p).tasks u) (post u) (stages u) o := by
    simpa using h.update hrefl hp u
  unfold Throng.advance at hadvance
  split at hadvance
  · cases hadvance
  · rename_i f next ht
    cases hadvance
    rw [ht] at hfollows
    obtain ⟨s, o', hworld, hchanges, hnext⟩ := hfollows o hrefl
    rw [h.world] at hworld hnext
    exact ⟨_, o', ⟨hworld, h.update (R.later_of_changes hchanges) hnext⟩,
      .changes t _ (by rw [ht]; rfl) hchanges⟩
  · rename_i what next ht
    cases hadvance
    rw [ht] at hfollows
    obtain ⟨hinvokes, hnext⟩ := hfollows o hrefl
    rw [h.world] at hnext
    exact ⟨stages, o, ⟨h.world, hsame _ hnext⟩, .invokes t _ (by rw [ht]; rfl) hinvokes⟩
  · rename_i cell access next ht
    have hwanted : wanted? (g.tasks t) = some (cell, access) := by rw [ht]; rfl
    rw [ht] at hfollows
    obtain ⟨htakes, hnext⟩ := hfollows o hrefl
    split at hadvance
    · cases hadvance
    rename_i hline
    split at hadvance
    · rename_i hmeets
      cases hadvance
      exact ⟨_, o, ⟨h.world, h.update hrefl hnext⟩, .enters t _ hwanted htakes hmeets⟩
    · rename_i hmeets
      cases hadvance
      exact ⟨stages, o, ⟨h.world, h.follows⟩,
        .linesUp t hwanted htakes hline (by simpa using hmeets)⟩
  · rename_i cell next ht
    have hidle : wanted? (g.tasks t) = none := by rw [ht]; rfl
    cases hadvance
    rw [ht] at hfollows
    obtain ⟨hgives, hnext⟩ := hfollows o hrefl
    refine ⟨_, o, ⟨h.world, fun u => ?_⟩, .gives t _ hidle hgives⟩
    show R.Follows (if u ∈ ((g.locks cell).release t).2 then proceed _ else _) (post u) _ o
    split
    · -- whoever is let in has waited at the lock until now
      rename_i hu
      obtain ⟨access, hwanted⟩ := hg.exists_wanted_of_admitted hu
      have hne := hg.ne_of_admitted hidle hu
      obtain ⟨next', hu'⟩ := exists_next_of_wanted? hwanted
      have hfollows' := h.follows u
      rw [tasks_setLock, tasks_setTask, if_neg hne, hu']
      rw [hu'] at hfollows'
      exact (hfollows' o hrefl).2
    · exact h.update hrefl hnext u
  · rename_i millis next ht
    cases hadvance
    rw [ht] at hfollows
    exact ⟨stages, o, ⟨h.world, hsame _ (hfollows o hrefl)⟩, .rests t _ (by rw [ht]; rfl)⟩
  · rename_i millis next ht
    cases hadvance
    rw [ht] at hfollows
    exact ⟨stages, o, ⟨h.world, hsame _ (hfollows o hrefl isCancelled)⟩,
      .rests t _ (by rw [ht]; rfl)⟩
  · cases hadvance

/-- What holds in the beginning, and stays so whatever others do and whatever the rules allow a task
to do, holds of all that a throng under rules comes to. -/
theorem Governed.becomes {P : Throng K α → (TaskId → σ) → Ω → Prop}
    (run : g.Becomes others g') (h : Governed R post g stages o) (hg : g.Orderly)
    (hP : P g stages o)
    (hothers : ∀ {g : Throng K α} {stages : TaskId → σ} {o : Ω} {w : World K}, P g stages o →
      R.world o = g.world → others g.world w →
      ∃ o', R.world o' = w ∧ R.later o o' ∧ P { g with world := w } stages o')
    (htask : ∀ {g g' : Throng K α} {stages stages' : TaskId → σ} {o o' : Ω}, g.Orderly →
      Governed R post g stages o → P g stages o → Happens R g stages o g' stages' o' →
      P g' stages' o') :
    g'.Orderly ∧ ∃ stages' o', Governed R post g' stages' o' ∧ P g' stages' o' := by
  refine run.induct (P := fun g => g.Orderly ∧ ∃ stages o, Governed R post g stages o ∧
    P g stages o) ⟨hg, stages, o, h, hP⟩ ?_
  rintro c c' ⟨hc, stages, o, hgov, hP⟩ hstep
  refine ⟨hc.step hstep, ?_⟩
  cases hstep with
  | others hw =>
    obtain ⟨o', hworld, hlater, hP'⟩ := hothers hP hgov.world hw
    exact ⟨stages, o', ⟨hworld, fun t => (hgov.follows t).later hlater⟩, hP'⟩
  | task t isCancelled hadvance =>
    obtain ⟨stages', o', hgov', happens⟩ := hgov.advance hc hadvance
    exact ⟨stages', o', hgov', htask hc hgov hP happens⟩

end Throng

end Steward
