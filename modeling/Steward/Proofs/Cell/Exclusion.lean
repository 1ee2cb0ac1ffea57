import Steward.Proofs.Cell.Gate
import Steward.Proofs.Cell.Holders
import Steward.Proofs.Cell.Scene
/-!
A crowd at one cell. Its tasks make requests to the cell, in any number and in any order of steps,
and nothing is assumed of its lock but that a writer excludes everybody else. Then whatever is told
is told in turn: one operation is at work at a time, none while a task is in a call, and nobody sees
the cell but as the operations left it that are done.
-/
namespace Steward

open Steward.Action Telling World

variable {K : Kit}

namespace Cell

def Scene.IsApart (t : TaskId) : Scene → Prop
  | .calm _ callers => t ∉ callers
  | .work u _ _ => u ≠ t

/-- Where nobody is at work, the cell stands so. -/
def Scene.Shows (c : Subject) (w : World K) : Scene → Prop
  | .calm s _ => c.Stands s w
  | .work _ _ _ => True

/-- Where a task is goes with what is going on. -/
def Place.Fits (c : Subject) (t : TaskId) (w : World K) (scene : Scene) : Place K → Prop
  | .away => scene.IsApart t
  | .reading _ s isCall => ∃ callers, scene = .calm s callers ∧ (isCall = true ↔ t ∈ callers)
  | .writing v none => (∃ s callers, scene = .calm s callers ∧ t ∉ callers) ∧ Spares c.id v w
  | .writing v (some (op, s)) => scene = .work t op s ∧ Spares c.id v w

section Fits

variable {c : Subject} {t u : TaskId} {v w : World K} {scene : Scene} {place : Place K}

theorem Place.Fits.later (h : place.Fits c t v scene) (hvw : Spares c.id v w) :
    place.Fits c t w scene := by
  match place, h with
  | .away, h => exact h
  | .reading _ _ _, h => exact h
  | .writing _ none, h => exact ⟨h.1, h.2.trans hvw⟩
  | .writing _ (some (_, _)), h => exact ⟨h.1, h.2.trans hvw⟩

theorem Place.Fits.knows (h : place.Fits c t w scene) (hshows : scene.Shows c w) :
    place.Knows c w := by
  match place, h with
  | .away, _ => trivial
  | .reading _ _ _, ⟨callers, hscene, _⟩ =>
    subst hscene
    exact hshows
  | .writing _ none, h => exact h.2
  | .writing _ (some (_, _)), h => exact h.2

theorem Place.Fits.eq_away {op : Operation} {s : Standing} (h : place.Fits c u w (.work t op s))
    (hu : u ≠ t) : place = .away := by
  match place, h with
  | .away, _ => rfl
  | .reading _ _ _, ⟨_, hscene, _⟩ => cases hscene
  | .writing _ none, ⟨⟨_, _, hscene, _⟩, _⟩ => cases hscene
  | .writing _ (some (_, _)), ⟨hscene, _⟩ =>
    cases hscene
    exact absurd rfl hu

theorem Place.Fits.callers {s : Standing} {callers callers' : Finset TaskId}
    (h : place.Fits c t w (.calm s callers)) (hsame : t ∈ callers' ↔ t ∈ callers) :
    place.Fits c t w (.calm s callers') := by
  match place, h with
  | .away, h => exact fun ht => h (hsame.1 ht)
  | .reading _ _ _, ⟨_, hscene, hcall⟩ =>
    cases hscene
    exact ⟨callers', rfl, hcall.trans hsame.symm⟩
  | .writing _ none, ⟨⟨_, _, hscene, ht⟩, hspares⟩ =>
    cases hscene
    exact ⟨⟨s, callers', rfl, fun ht' => ht (hsame.1 ht')⟩, hspares⟩
  | .writing _ (some (_, _)), ⟨hscene, _⟩ => cases hscene

theorem Place.May.spares (h : place.May c v w) (hwork : ¬ place.AtWork) : Spares c.id v w := by
  match place, h with
  | .away, h => exact h
  | .reading _ _ _, h => exact h
  | .writing _ none, h => exact h
  | .writing _ (some _), _ => exact absurd trivial hwork

theorem Place.AtWork.may (h : place.AtWork) : place.May c v w := by
  cases place with
  | away => exact h.elim
  | reading again s isCall => exact h.elim
  | writing v work =>
    cases work with
    | none => exact h.elim
    | some work => trivial

theorem Place.Fits.exists_work (h : place.Fits c t v scene) (hwork : place.AtWork) :
    ∃ op s, scene = .work t op s := by
  cases place with
  | away => exact hwork.elim
  | reading again s isCall => exact hwork.elim
  | writing v work =>
    cases work with
    | none => exact hwork.elim
    | some work => exact ⟨work.1, work.2, h.1⟩

theorem Place.Fits.after (h : place.Fits c t v scene) (w : World K) :
    (place.after w).Fits c t w scene := by
  match place, h with
  | .away, h => exact h
  | .reading _ _ _, h => exact h
  | .writing _ none, h => exact ⟨h.1, .refl c.id w⟩
  | .writing _ (some (_, _)), h => exact ⟨h.1, .refl c.id w⟩

theorem Place.isWriting_after : (place.after w).IsWriting ↔ place.IsWriting := by
  cases place <;> rfl

theorem Place.shares_after : (place.after w).shares = place.shares := by
  cases place <;> rfl

theorem Scene.Shows.later (h : scene.Shows c v) (hvw : Spares c.id v w) : scene.Shows c w := by
  cases scene with
  | calm s callers => exact hvw _ h
  | work t op s => trivial

end Fits

structure InOrder (c : Subject) (s₀ : Standing) (crowd : Crowd K Mark) (place : TaskId → Place K)
    (scene : Scene) : Prop where
  abides : ∀ t, Abides c (crowd.tasks t) (fun _ here => here = .away) (place t)
  fits : ∀ t, (place t).Fits c t crowd.world scene
  shows : scene.Shows c crowd.world
  accounts : (crowd.locks c.id).Accounts place
  leads : Leads (Scene.Next c.name) (.calm s₀ ∅) crowd.log scene

namespace InOrder

variable {c : Subject} {s₀ : Standing} {crowd : Crowd K Mark} {place : TaskId → Place K}
  {scene scene' : Scene} {t : TaskId} {told : List Mark} {p : Telling K Mark Unit} {w : World K}
  {locks : CellId → Lock} {here : Place K}

theorem advance (h : InOrder c s₀ crowd place scene)
    (habides : Abides c p (fun _ here => here = .away) here) (hfits : here.Fits c t w scene')
    (hrest : ∀ u, u ≠ t → (place u).Fits c u w scene') (hshows : scene'.Shows c w)
    (haccounts : (locks c.id).Accounts (Function.update place t here))
    (hleads : Leads (Scene.Next c.name) scene (told.map fun word => (t, word)) scene') :
    InOrder c s₀ (crowd.advance t told p w locks) (Function.update place t here) scene' where
  abides u := by
    obtain rfl | hu := eq_or_ne u t
    · simpa only [Crowd.advance, Function.update_self] using habides
    · simpa only [Crowd.advance, Function.update_of_ne hu] using h.abides u
  fits u := by
    show Place.Fits c u w scene' _
    obtain rfl | hu := eq_or_ne u t
    · rwa [Function.update_self]
    · rw [Function.update_of_ne hu]
      exact hrest u hu
  shows := hshows
  accounts := haccounts
  leads := h.leads.append hleads

theorem goOn (h : InOrder c s₀ crowd place scene)
    (habides : Abides c p (fun _ here => here = .away) (place t))
    (hlocks : locks c.id = crowd.locks c.id) :
    InOrder c s₀ (crowd.advance t [] p crowd.world locks) place scene := by
  have hadvance : InOrder c s₀ (crowd.advance t [] p crowd.world locks)
      (Function.update place t (place t)) scene :=
    h.advance habides (h.fits t) (fun u _ => h.fits u) h.shows
      (by rw [hlocks, Function.update_eq_self]; exact h.accounts) (.nil scene)
  rwa [Function.update_eq_self] at hadvance

/-- A task makes the world another one. Only the one at work changes where the cell stands, and then
all others are away. -/
theorem update (h : InOrder c s₀ crowd place scene) (hmay : (place t).May c crowd.world w)
    (habides : Abides c p (fun _ here => here = .away) ((place t).after w)) :
    InOrder c s₀ (crowd.advance t [] p w crowd.locks)
      (Function.update place t ((place t).after w)) scene := by
  have haccounts : (crowd.locks c.id).Accounts (Function.update place t ((place t).after w)) :=
    h.accounts.update Place.isWriting_after Place.shares_after
  by_cases hwork : (place t).AtWork
  · obtain ⟨op, s, rfl⟩ := (h.fits t).exists_work hwork
    refine h.advance habides ((h.fits t).after w) (fun u hu => ?_) trivial haccounts (.nil _)
    rw [(h.fits u).eq_away hu]
    exact hu.symm
  · have hspares : Spares c.id crowd.world w := hmay.spares hwork
    exact h.advance habides ((h.fits t).after w) (fun u _ => (h.fits u).later hspares)
      (h.shows.later hspares) haccounts (.nil scene)

theorem eq_away_of_isWriting (h : InOrder c s₀ crowd place scene) (ht : (place t).IsWriting)
    {u : TaskId} (hu : u ≠ t) : place u = .away := by
  have hshares := h.accounts.shares_eq_zero ht u
  cases hplace : place u with
  | away => rfl
  | reading again s isCall => rw [hplace] at hshares; cases hshares
  | writing v work =>
    have hwrites : (place u).IsWriting := hplace ▸ trivial
    exact absurd (Option.some.inj (((h.accounts.writer u).2 hwrites).symm.trans
      ((h.accounts.writer t).2 ht))) hu

theorem exists_stands (h : InOrder c s₀ crowd place scene)
    (hwriter : (crowd.locks c.id).writer.isNone = true) :
    ∃ s callers, scene = .calm s callers ∧ c.Stands s crowd.world := by
  have hshows := h.shows
  cases scene with
  | calm s callers => exact ⟨s, callers, rfl, hshows⟩
  | work u op s =>
    have hfits := h.fits u
    refine absurd ?_ (h.accounts.not_isWriting hwriter u)
    cases hplace : place u with
    | writing v work => trivial
    | away => rw [hplace] at hfits; exact hfits rfl
    | reading again s' isCall =>
      rw [hplace] at hfits
      obtain ⟨_, hscene, _⟩ := hfits
      cases hscene

theorem exists_takes {access : Access} {s : Standing} {callers : Finset TaskId}
    (h : InOrder c s₀ crowd place (.calm s callers))
    (hallows : (crowd.locks c.id).allows access = true) :
    ∃ here, (place t).Takes c access here ∧ here.Fits c t crowd.world (.calm s callers) := by
  have hfits := h.fits t
  have hreaders := h.accounts.readers t
  cases hplace : place t with
  | writing v work =>
    refine absurd (hplace ▸ trivial) (h.accounts.not_isWriting ?_ t)
    exact Lock.isNone_of_allows hallows
  | away =>
    rw [hplace] at hfits
    cases access with
    | read => exact ⟨_, .read s, callers, rfl, iff_of_false Bool.false_ne_true hfits⟩
    | write => exact ⟨_, .write s _ h.shows, ⟨s, callers, rfl, hfits⟩, .refl c.id _⟩
  | reading again s' isCall =>
    rw [hplace] at hfits hreaders
    cases access with
    | read => exact ⟨_, .again again s' isCall, hfits⟩
    | write =>
      have hempty : (crowd.locks c.id).readers = [] :=
        List.isEmpty_iff.1 (Bool.and_eq_true_iff.1 hallows).2
      rw [hempty] at hreaders
      cases hreaders

theorem take {access : Access} (h : InOrder c s₀ crowd place scene)
    (hallows : (crowd.locks c.id).allows access = true)
    (habides : ∀ here, (place t).Takes c access here →
      Abides c p (fun _ here => here = .away) here) :
    ∃ here, InOrder c s₀ (crowd.advance t [] p crowd.world
      (Function.update crowd.locks c.id ((crowd.locks c.id).grant t access)))
      (Function.update place t here) scene := by
  obtain ⟨s, callers, rfl, -⟩ := h.exists_stands (Lock.isNone_of_allows hallows)
  obtain ⟨here, htakes, hfits⟩ := h.exists_takes (t := t) hallows
  refine ⟨here, h.advance (habides here htakes) hfits (fun u _ => h.fits u) h.shows ?_ (.nil _)⟩
  rw [Function.update_self]
  exact h.accounts.grant hallows htakes

theorem give (h : InOrder c s₀ crowd place scene) (hgives : (place t).Gives here)
    (habides : Abides c p (fun _ here => here = .away) here) :
    InOrder c s₀ (crowd.advance t [] p crowd.world
      (Function.update crowd.locks c.id ((crowd.locks c.id).leave t)))
      (Function.update place t here) scene := by
  refine h.advance habides ?_ (fun u _ => h.fits u) h.shows ?_ (.nil scene)
  · have hfits := h.fits t
    generalize place t = q at hgives hfits
    cases hgives with
    | last s =>
      obtain ⟨callers, rfl, hcall⟩ := hfits
      exact fun ht => Bool.false_ne_true (hcall.2 ht)
    | again n s isCall => exact hfits
    | write v =>
      obtain ⟨⟨s, callers, rfl, ht⟩, -⟩ := hfits
      exact ht
  · rw [Function.update_self]
    exact h.accounts.leave hgives

theorem Stands.eq {s s' : Standing} (h : c.Stands s w) (h' : c.Stands s' w) : s' = s :=
  congrArg Face.standing (Option.some.inj (h'.symm.trans h))

theorem begin {v : World K} {op : Operation} {s : Standing} (h : InOrder c s₀ crowd place scene)
    (hplace : place t = .writing v none) (hs : c.Stands s v)
    (habides : Abides c p (fun _ here => here = .away) (.writing v (some (op, s)))) :
    InOrder c s₀ (crowd.advance t [.begun op] p crowd.world crowd.locks)
      (Function.update place t (.writing v (some (op, s)))) (.work t op s) := by
  have haway : ∀ u, u ≠ t → place u = .away := fun u =>
    h.eq_away_of_isWriting (hplace ▸ trivial)
  have hfits := h.fits t
  rw [hplace] at hfits
  obtain ⟨⟨s', callers, rfl, ht⟩, hspares⟩ := hfits
  obtain rfl : s' = s := Stands.eq (hspares _ hs) h.shows
  have hnobody : callers = ∅ := Finset.eq_empty_of_forall_notMem fun u hu => by
    have hne : u ≠ t := fun hut => ht (hut ▸ hu)
    have hfitsu := h.fits u
    rw [haway u hne] at hfitsu
    exact hfitsu hu
  subst hnobody
  refine h.advance habides ⟨rfl, hspares⟩ (fun u hu => ?_) trivial ?_
    (.cons (.begun t op s') (.nil _))
  · rw [haway u hu]
    exact hu.symm
  · exact h.accounts.update (by rw [hplace]; rfl) (by rw [hplace]; rfl)

theorem tell {word : Mark} (h : InOrder c s₀ crowd place scene)
    (htells : (place t).Tells c word here)
    (habides : Abides c p (fun _ here => here = .away) here) :
    ∃ scene', InOrder c s₀ (crowd.advance t [word] p crowd.world crowd.locks)
      (Function.update place t here) scene' := by
  have hfits := h.fits t
  have haccounts : ∀ {there : Place K}, (there.IsWriting ↔ (place t).IsWriting) →
      there.shares = (place t).shares →
        (crowd.locks c.id).Accounts (Function.update place t there) := h.accounts.update
  generalize hplace : place t = q at htells hfits haccounts
  cases htells with
  | begun op s hs => exact ⟨_, h.begin hplace hs habides⟩
  | done hs' hdoes =>
    obtain ⟨rfl, hspares⟩ := hfits
    refine ⟨_, h.advance habides ⟨⟨_, ∅, rfl, Finset.notMem_empty t⟩, hspares⟩ (fun u hu => ?_)
      (hspares _ hs') (haccounts .rfl rfl) (.cons (.done hdoes) (.nil _))⟩
    rw [(h.fits u).eq_away hu]
    exact Finset.notMem_empty u
  | saw n s isCall =>
    obtain ⟨callers, rfl, hcall⟩ := hfits
    exact ⟨_, h.advance habides ⟨callers, rfl, hcall⟩ (fun u _ => h.fits u) h.shows
      (haccounts .rfl rfl) (.cons (.saw t s callers) (.nil _))⟩
  | entered hgate =>
    obtain ⟨callers, rfl, hcall⟩ := hfits
    have ht : t ∉ callers := fun ht => Bool.false_ne_true (hcall.2 ht)
    refine ⟨_, h.advance habides ⟨insert t callers, rfl, ?_⟩ (fun u hu => ?_) h.shows
      (haccounts .rfl rfl) (.cons (.entered hgate ht) (.nil _))⟩
    · exact iff_of_true rfl (Finset.mem_insert_self t callers)
    · exact (h.fits u).callers (by rw [Finset.mem_insert, or_iff_right hu])
  | left s =>
    obtain ⟨callers, rfl, hcall⟩ := hfits
    refine ⟨_, h.advance habides ⟨callers.erase t, rfl, ?_⟩ (fun u hu => ?_) h.shows
      (haccounts .rfl rfl) (.cons (.left (hcall.1 rfl)) (.nil _))⟩
    · exact iff_of_false Bool.false_ne_true (Finset.notMem_erase t callers)
    · exact (h.fits u).callers (by rw [Finset.mem_erase, and_iff_right hu])

variable {others : World K → World K → Prop} {crowd' : Crowd K Mark}

theorem step (h : InOrder c s₀ crowd place scene) (hothers : ∀ u v, others u v → Spares c.id u v)
    (hstep : Crowd.Step others crowd crowd') :
    ∃ place' scene', InOrder c s₀ crowd' place' scene' := by
  cases hstep with
  | others hw =>
    have hspares : Spares c.id _ _ := hothers _ _ hw
    exact ⟨place, scene, h.abides, fun u => (h.fits u).later hspares, h.shows.later hspares,
      h.accounts, h.leads⟩
  | task t hmoves =>
    have habides := h.abides t
    generalize crowd.tasks t = p at hmoves habides
    have hknows := (h.fits t).knows h.shows
    cases hmoves with
    | update =>
      obtain ⟨hmay, hnext⟩ := habides _ hknows
      exact ⟨_, scene, h.update hmay hnext⟩
    | invoke => exact ⟨_, scene, h.update habides.1.may (habides.2 _ hknows)⟩
    | @acquire cell access next w locks hallows =>
      by_cases hcell : cell = c.id
      · subst hcell
        obtain ⟨here, horder⟩ := h.take hallows (habides.1 rfl)
        exact ⟨_, scene, horder⟩
      · exact ⟨place, scene, h.goOn (habides.2 hcell) (Function.update_of_ne (Ne.symm hcell) ..)⟩
    | @release cell next w locks =>
      by_cases hcell : cell = c.id
      · subst hcell
        obtain ⟨here, hgives, hnext⟩ := habides.1 rfl
        exact ⟨_, scene, h.give hgives hnext⟩
      · exact ⟨place, scene, h.goOn (habides.2 hcell) (Function.update_of_ne (Ne.symm hcell) ..)⟩
    | rest => exact ⟨place, scene, h.goOn habides rfl⟩
    | restUnlessCancelled b => exact ⟨place, scene, h.goOn (habides b) rfl⟩
    | tell =>
      obtain ⟨here, htells, hnext⟩ := habides
      exact ⟨_, h.tell htells hnext⟩

end InOrder

def Mark.sight? : Mark → Option Standing
  | .saw s | .entered _ s => some s
  | _ => none

/-- Operations and calls keep out of each other's way. -/
structure InTurn (c : Subject) (s₀ : Standing) (crowd : Crowd K Mark) : Prop where
  /-- Whoever comes to a hook of the application has begun an operation, and that is the last that
  was told. -/
  hooks : ∀ t what next, crowd.tasks t = .call (.effect (.invoke what)) next →
    ∃ before op, crowd.log = before ++ [(t, .begun op)]
  /-- From the beginning of an operation until it is done nobody tells anything. -/
  operations : ∀ before t op after, crowd.log = before ++ (t, .begun op) :: after →
    after = [] ∨ ∃ deed rest, after = (t, .done op deed) :: rest
  /-- A call is let in by where the cell stands, and as long as it has not left the cell stands
  there; no operation begins or is done, no hook is come to, and nothing else is seen. -/
  calls : ∀ before t method s after, crowd.log = before ++ (t, .entered method s) :: after →
    (t, Mark.left) ∉ after →
      s.gate c.name method = .ok () ∧ c.Stands s crowd.world ∧
        (∀ entry ∈ after, entry.2.Keeps s) ∧
        ∀ u what next, crowd.tasks u ≠ .call (.effect (.invoke what)) next
  /-- Whoever sees the cell sees where the operations brought it that were done before, one after
  the other, and never one that is at work. -/
  sights : ∀ before t word s after, crowd.log = before ++ (t, word) :: after →
    word.sight? = some s → s.IsSettled ∧ Brings c.name s₀ (doings before) s
  /-- So does whoever is let in without waiting. -/
  glances : (crowd.locks c.id).allows .read = true →
    ∃ s, c.Stands s crowd.world ∧ s.IsSettled ∧ Brings c.name s₀ (doings crowd.log) s

section InTurn

variable {c : Subject} {s₀ : Standing} {crowd : Crowd K Mark} {place : TaskId → Place K}
  {scene : Scene}

theorem InOrder.exists_work (h : InOrder c s₀ crowd place scene) {t : TaskId} {what : Invocation}
    {next : World K → Telling K Mark Unit}
    (htask : crowd.tasks t = .call (.effect (.invoke what)) next) :
    ∃ op s, scene = .work t op s := by
  have habides := h.abides t
  rw [htask] at habides
  exact (h.fits t).exists_work habides.1

theorem InOrder.inTurn (h : InOrder c s₀ crowd place scene) (hsettled : s₀.IsSettled) :
    InTurn c s₀ crowd where
  hooks t what next htask := by
    obtain ⟨op, s, rfl⟩ := h.exists_work htask
    obtain ⟨before, hlog⟩ := begun_of_leads h.leads
    exact ⟨before, op, hlog⟩
  operations before t op after hlog := by
    obtain ⟨a, -, hafter⟩ := (hlog ▸ h.leads).split
    obtain ⟨⟩ | ⟨hbegun, hrest⟩ := hafter
    cases hbegun with
    | begun => exact done_of_leads hrest
  calls before t method s after hlog hin := by
    obtain ⟨a, -, hafter⟩ := (hlog ▸ h.leads).split
    obtain ⟨⟩ | ⟨hentered, hrest⟩ := hafter
    cases hentered with
    | entered hgate =>
      obtain ⟨⟨callers, rfl, _⟩, hkeeps⟩ :=
        calm_of_leads hrest (Finset.mem_insert_self t _) hin
      refine ⟨hgate, h.shows, hkeeps, fun u what next htask => ?_⟩
      obtain ⟨op, s', hscene⟩ := h.exists_work htask
      cases hscene
  sights before t word s after hlog hsight := by
    obtain ⟨a, hbefore, hafter⟩ := (hlog ▸ h.leads).split
    have hbrings : Brings c.name s₀ (doings before) a.standing := brings_of_leads hbefore
    obtain ⟨⟩ | ⟨hword, -⟩ := hafter
    obtain rfl : a.standing = s := by
      cases hword <;> cases hsight <;> rfl
    exact ⟨hbrings.isSettled hsettled, hbrings⟩
  glances hallows := by
    obtain ⟨s, callers, rfl, hs⟩ := h.exists_stands hallows
    have hbrings : Brings c.name s₀ (doings crowd.log) s := brings_of_leads h.leads
    exact ⟨s, hs, hbrings.isSettled hsettled, hbrings⟩

end InTurn

variable {ρ : Type}

/-- Tasks that make requests to a cell, each as it likes after the answers so far. -/
abbrev Requests (K : Kit) (ρ : Type) := TaskId → Program (Request.Answer (K := K) (ρ := ρ)) Unit

def gather (id : CellId) (tasks : Requests K ρ) (w : World K) (locks : CellId → Lock) :
    Crowd K Mark where
  world := w
  locks := locks
  tasks t := silent ((tasks t).interpret (Request.run id))

/-- The same tasks, which tell of the cell. -/
def gatherTelling (id : CellId) (tasks : Requests K ρ) (w : World K) (locks : CellId → Lock) :
    Crowd K Mark where
  world := w
  locks := locks
  tasks t := (tasks t).interpret (Request.telling id)

theorem mute_gatherTelling (id : CellId) (tasks : Requests K ρ) (w : World K)
    (locks : CellId → Lock) : (gatherTelling id tasks w locks).mute = gather id tasks w locks := by
  have htasks : ∀ t, Telling.mute ((tasks t).interpret (Request.telling id)) =
      (tasks t).interpret (Request.run id) := fun t => by
    simp only [mute_interpret, mute_telling]
  exact congrArg (fun tasks => (⟨w, locks, tasks, []⟩ : Crowd K Mark))
    (funext fun t => congrArg silent (htasks t))

section Gathering

variable {id : CellId} {d : Cell K} {w : World K} {locks : CellId → Lock}

theorem inOrder_gatherTelling (hd : w.cell? id = some d) (hfree : locks id = .free)
    (tasks : Requests K ρ) :
    InOrder ⟨id, d.name, d.isMini⟩ d.standing (gatherTelling id tasks w locks) (fun _ => .away)
      (.calm d.standing ∅) where
  abides t := Returns.interpret returns_telling (tasks t)
  fits t := Finset.notMem_empty t
  shows := face?_of_cell? hd
  accounts := by
    show (locks id).Accounts _
    rw [hfree]
    exact .free
  leads := .nil _

/-- However many tasks build, destroy, assign, rotate, call and look at one cell, in whatever order
their steps are taken, the hooks of two operations are never run side by side, no operation is at
work while a call is, and where the cell stands is what let the call in; whoever looks sees what the
operations brought about that are done. The tasks tell so while they do the same as they always
do. -/
theorem requests_take_turns {others : World K → World K → Prop} (hd : w.cell? id = some d)
    (hsettled : d.standing.IsSettled) (hfree : locks id = .free)
    (hothers : ∀ u v, others u v → Spares id u v) (tasks : Requests K ρ) :
    (∀ crowd, (gatherTelling id tasks w locks).Becomes others crowd →
      InTurn ⟨id, d.name, d.isMini⟩ d.standing crowd) ∧
    ∀ quiet, (gather id tasks w locks).Becomes others quiet →
      ∃ crowd, (gatherTelling id tasks w locks).Becomes others crowd ∧ crowd.mute = quiet := by
  refine ⟨fun crowd run => ?_, fun quiet run => ?_⟩
  · let P (crowd : Crowd K Mark) := ∃ place scene,
      InOrder ⟨id, d.name, d.isMini⟩ d.standing crowd place scene
    have horder : P crowd :=
      run.induct ⟨_, _, inOrder_gatherTelling hd hfree tasks⟩ fun ⟨_, _, h⟩ step =>
        h.step hothers step
    obtain ⟨place, scene, h⟩ := horder
    exact h.inTurn hsettled
  · rw [← mute_gatherTelling] at run
    exact Crowd.exists_becomes_of_mute run

end Gathering

def visitors : Requests Rehearsal.kit Unit
  | 0 => (fun _ => ()) <$> Program.ask (Request.build .boot)
  | 1 => (fun _ => ()) <$> Program.ask Request.look
  | _ => return ()

def visited : Crowd Rehearsal.kit Mark :=
  gatherTelling 0 visitors { cells := #[api] } fun _ => .free

theorem requests_take_turns_api :
    (∃ crowd, visited.Becomes (Spares 0) crowd ∧ crowd.log = [(0, .begun (.build .boot))]) ∧
    ∀ crowd, visited.Becomes (Spares 0) crowd → InTurn ⟨0, "api", false⟩ {} crowd := by
  have hsettled : api.standing.IsSettled := ⟨by decide, by decide⟩
  constructor
  · exact ⟨_, ((Relation.ReflTransGen.single (.task 0 .update)).tail (.task 0 (.acquire rfl))).tail
      (.task 0 .tell), rfl⟩
  · exact (requests_take_turns (d := api) rfl hsettled rfl (fun _ _ h => h) visitors).1

end Cell

end Steward
