import Mathlib.Data.Prod.Lex
import Steward.Proofs.Sequence
import Steward.Proofs.Waiting.Errands
import Steward.Proofs.Waiting.Rehearsal
/-!
Tasks never wait for each other in a round. Whoever waits for a lock has only locks that come after
it, so along a chain of waiting tasks the locks come earlier and earlier, and within the line of one
lock nobody waits for who comes later. At the end of each chain is a task that has a lock and can go
on.
-/
namespace Steward

variable {K : Kit} {B : Bounds K} {α ρ : Type}

namespace Lock

/-- Of two tasks in the line of a lock the first one is let in before the second one. -/
def Precedes (l : Lock) (u t : TaskId) : Prop :=
  ∃ before after, l.line.map (·.1) = before ++ t :: after ∧ u ∈ before

theorem Precedes.isInLine {l : Lock} {t u : TaskId} (h : l.Precedes u t) :
    Throng.IsInLine l u := by
  obtain ⟨before, after, hline, hu⟩ := h
  rw [Throng.IsInLine, hline]
  exact List.mem_append_left _ hu

end Lock

namespace Throng

/-- A task stands in the line of a lock. -/
def IsWaiting (g : Throng K α) (t : TaskId) : Prop := ∃ cell, IsInLine (g.locks cell) t

/-- A task stands in line for a lock that another one has, or that another one before it in the line
is going to have first. -/
def WaitsFor (g : Throng K α) (t u : TaskId) : Prop :=
  ∃ cell, IsInLine (g.locks cell) t ∧
    (u ∈ (g.locks cell).holders ∨ (g.locks cell).Precedes u t)

structure Kept (g : Throng K α) (held : TaskId → List CellId) : Prop where
  count : ∀ cell t, (g.locks cell).holders.count t = (held t).count cell
  blocked : ∀ cell, (g.locks cell).Blocked

variable {g g' : Throng K α} {held held' : TaskId → List CellId} {e e' : Estate B}
  {post : TaskId → List CellId → α → Estate B → Prop} {t u : TaskId} {cell other : CellId}

theorem Kept.mem_holders_iff (h : g.Kept held) :
    t ∈ (g.locks cell).holders ↔ cell ∈ held t := by
  rw [← List.count_pos_iff, h.count, List.count_pos_iff]

theorem kept_of_free (h : ∀ cell, g.locks cell = .free) : g.Kept fun _ => [] where
  count cell t := by simp [h]
  blocked cell := h cell ▸ Lock.blocked_free

theorem Kept.setLock {lock : Lock} (h : g.Kept held)
    (hcount : ∀ u, lock.holders.count u = (held' u).count cell)
    (hothers : ∀ u, ∀ other ≠ cell, (held' u).count other = (held u).count other)
    (hblocked : lock.Blocked) : (g.setLock cell lock).Kept held' where
  count other u := by
    rw [locks_setLock]
    split
    · subst other
      exact hcount u
    · rw [hothers u other ‹_›]
      exact h.count other u
  blocked other := by
    rw [locks_setLock]
    split
    · exact hblocked
    · exact h.blocked other

theorem Kept.enter {access : Access} (h : g.Kept held) (p : Action K α)
    (hmeets : (g.locks cell).meets access = true) :
    ((g.setTask t p).setLock cell ((g.locks cell).grant t access)).Kept
      (Function.update held t (cell :: held t)) := by
  have hset : (g.setTask t p).Kept held := ⟨h.count, h.blocked⟩
  have hallows : (g.locks cell).allows access = true := by
    rw [Lock.meets, Bool.and_eq_true] at hmeets
    exact hmeets.2
  refine hset.setLock (fun u => ?_) (fun u other hother => ?_) (Lock.blocked_grant hmeets)
  · rw [Lock.count_holders_grant hallows, h.count, Function.update_apply]
    split
    · subst u
      simp
    · rename_i hne
      simp [Ne.symm hne]
  · rw [Function.update_apply]
    split
    · subst u
      exact List.count_cons_of_ne (Ne.symm hother)
    · rfl

theorem Kept.lineUp {access : Access} (h : g.Kept held)
    (hwaits : (g.locks cell).meets access = false) :
    (g.setLock cell ((g.locks cell).request t access)).Kept held := by
  refine h.setLock (fun u => ?_) (fun _ _ _ => rfl) (Lock.blocked_request (h.blocked cell) hwaits)
  rw [Lock.request, if_neg (by simp [hwaits]), ← h.count]
  rfl

theorem Kept.release (h : g.Kept held) (ho : g.Orderly) (hidle : wanted? (g.tasks t) = none)
    (hheld : cell ∈ held t) (p : Action K α) :
    (((g.setTask t p).setLock cell ((g.locks cell).release t).1).letIn
      ((g.locks cell).release t).2).Kept
        (fun u => if u ∈ ((g.locks cell).release t).2 then cell :: held u
          else Function.update held t ((held t).erase cell) u) := by
  have hset : (g.setTask t p).Kept held := ⟨h.count, h.blocked⟩
  have hstill : ((g.setTask t p).setLock cell ((g.locks cell).release t).1).Kept
      (fun u => if u ∈ ((g.locks cell).release t).2 then cell :: held u
        else Function.update held t ((held t).erase cell) u) := by
    refine hset.setLock (fun u => ?_) (fun u other hother => ?_) (Lock.blocked_letIn _ _)
    · have hcount := Lock.count_holders_release (u := u) (h.mem_holders_iff.2 hheld)
      rw [h.count, (ho.nodup_admitted cell t).count] at hcount
      split at hcount
      · rename_i hu
        have hu' := ho.ne_of_admitted hidle hu
        simpa [hu, hu', Ne.symm hu'] using hcount
      · rename_i hu
        simp only [hu, if_false, Function.update_apply]
        split
        · subst u
          rw [List.count_erase_self]
          simp only [List.count_cons_self, List.count_nil] at hcount
          omega
        · rename_i hu'
          simpa [Ne.symm hu'] using hcount
    · split
      · exact List.count_cons_of_ne (Ne.symm hother)
      · rw [Function.update_apply]
        split
        · subst u
          exact List.count_erase_of_ne hother
        · rfl
  exact ⟨hstill.count, hstill.blocked⟩

theorem Kept.happens (h : g.Kept held) (ho : g.Orderly)
    (hstep : Happens (wary B) g held e g' held' e') : g'.Kept held' := by
  cases hstep with
  | rests t p idle => exact ⟨h.count, h.blocked⟩
  | changes t p idle changes =>
    rw [changes.1, Function.update_eq_self]
    exact ⟨h.count, h.blocked⟩
  | invokes t p idle invokes => exact ⟨h.count, h.blocked⟩
  | enters t p wants takes meets => exact h.enter p meets
  | linesUp t wants takes apart waits => exact h.lineUp waits
  | gives t p idle gives => exact h.release ho idle gives p

theorem Governed.isFree (h : Governed (wary B) post g held e) (ho : g.Orderly)
    (hline : IsInLine (g.locks cell) t) : e.IsFree (held t) cell := h.takes_of_isInLine ho hline

theorem Orderly.eq_of_isInLine (ho : g.Orderly) (hcell : IsInLine (g.locks cell) t)
    (hother : IsInLine (g.locks other) t) : cell = other := by
  obtain ⟨access, hmem⟩ := isInLine_iff.1 hcell
  obtain ⟨access', hmem'⟩ := isInLine_iff.1 hother
  have hwanted := (ho.wanted cell t access hmem).symm.trans (ho.wanted other t access' hmem')
  exact congrArg Prod.fst (Option.some.inj hwanted)

/-- Where a task waits: the place of the lock in the order, and the place in the line. -/
def place (e : Estate B) (g : Throng K α) (t : TaskId) : Nat ×ₗ Nat :=
  match wanted? (g.tasks t) with
  | some (cell, _) => toLex (e.rank cell, ((g.locks cell).line.map (·.1)).idxOf t)
  | none => toLex (0, 0)

theorem Orderly.place_eq (ho : g.Orderly) (hline : IsInLine (g.locks cell) t) :
    place e g t = toLex (e.rank cell, ((g.locks cell).line.map (·.1)).idxOf t) := by
  obtain ⟨access, hmem⟩ := isInLine_iff.1 hline
  rw [place, ho.wanted cell t access hmem]

theorem WaitsFor.place_lt (hgov : Governed (wary B) post g held e) (ho : g.Orderly)
    (hkept : g.Kept held) (h : g.WaitsFor t u) (hu : g.IsWaiting u) :
    place e g u < place e g t := by
  obtain ⟨cell, hline, hbefore⟩ := h
  obtain ⟨other, hother⟩ := hu
  rw [ho.place_eq hline, ho.place_eq hother]
  rcases hbefore with hholds | hbefore
  · have hfree := hgov.isFree ho hother
    exact Prod.Lex.toLex_lt_toLex.2 (.inl (hfree.rank_lt cell (hkept.mem_holders_iff.1 hholds)).2)
  · obtain rfl := ho.eq_of_isInLine hbefore.isInLine hother
    obtain ⟨before, after, hmap, hmem⟩ := hbefore
    have hnodup := ho.nodup cell
    refine Prod.Lex.toLex_lt_toLex.2 (.inr ⟨rfl, ?_⟩)
    rw [hmap] at hnodup ⊢
    exact idxOf_lt_of_before hnodup hmem

theorem not_waitsFor_round (hgov : Governed (wary B) post g held e) (ho : g.Orderly)
    (hkept : g.Kept held) (t : TaskId) : ¬ Relation.TransGen g.WaitsFor t t := by
  intro hround
  have hwaiting {u v : TaskId} (h : Relation.TransGen g.WaitsFor u v) : g.IsWaiting u := by
    obtain ⟨w, ⟨cell, hline, -⟩, -⟩ := Relation.TransGen.head'_iff.1 h
    exact ⟨cell, hline⟩
  have hdown {u : TaskId} (h : Relation.TransGen g.WaitsFor t u) (hu : g.IsWaiting u) :
      Relation.TransGen (fun u v => g.WaitsFor u v ∧ g.IsWaiting v) t u := by
    induction h with
    | single h => exact .single ⟨h, hu⟩
    | tail _ hlast ih => exact (ih (hwaiting (.single hlast))).tail ⟨hlast, hu⟩
  exact not_transGen_of_rank (place e g) (fun u v huv => huv.1.place_lt hgov ho hkept huv.2) t
    (hdown hround (hwaiting hround))

theorem exists_waitsFor_holder (hgov : Governed (wary B) post g held e) (ho : g.Orderly)
    (hkept : g.Kept held) (hline : IsInLine (g.locks cell) t) :
    ∃ u, Relation.TransGen g.WaitsFor t u ∧ ¬ g.IsWaiting u ∧ held u ≠ [] := by
  induction hrank : e.rank cell using Nat.strong_induction_on generalizing cell t with
  | _ rank ih =>
    obtain ⟨head, hhead⟩ : ∃ head, head ∈ (g.locks cell).line.head? := by
      obtain ⟨access, hmem⟩ := isInLine_iff.1 hline
      exact ⟨_, List.head?_eq_some_head (List.ne_nil_of_mem hmem)⟩
    obtain ⟨u, hu⟩ := Lock.exists_mem_holders (hkept.blocked cell head hhead)
    have hwaits : g.WaitsFor t u := ⟨cell, hline, .inl hu⟩
    have hheld : cell ∈ held u := hkept.mem_holders_iff.1 hu
    by_cases hwaiting : g.IsWaiting u
    · obtain ⟨other, hother⟩ := hwaiting
      have hless := ((hgov.isFree ho hother).rank_lt cell hheld).2
      obtain ⟨v, hv, hstill, hnonempty⟩ := ih (e.rank other) (hrank ▸ hless) hother rfl
      exact ⟨v, .head hwaits hv, hstill, hnonempty⟩
    · exact ⟨u, .single hwaits, hwaiting, List.ne_nil_of_mem hheld⟩

theorem Governed.answer?_eq_none
    (h : Governed (wary B) (fun _ => Having [] fun _ _ => True) g held e) (ht : held t ≠ []) :
    answer? (g.tasks t) = none := by
  rw [Option.eq_none_iff_forall_ne_some]
  intro a ha
  exact ht (h.post_of_done (eq_done_of_answer? ha)).1

/-- Tasks set out on their duties, where there is nothing yet. -/
structure SetsOut (duties : TaskId → Duty K ρ α) (g : Throng K α) : Prop where
  tasks : ∀ t, g.tasks t = (duties t).action
  cells : g.world.cells = #[]
  members : g.world.roster.members = []
  locks : ∀ cell, g.locks cell = .free

end Throng

/-- A world where there is nothing yet. -/
def Estate.empty (B : Bounds K) (w : World K) (hcells : w.cells = #[])
    (hmembers : w.roster.members = []) : Estate B where
  world := w
  owner _ := none
  owner_of_le _ _ := rfl
  fits id inner hinner := by simp [World.cell?, hcells] at hinner
  members m hm := by simp [hmembers] at hm

open Throng in
/-- Whatever tasks do in a fleet, with components that wait for nothing but what they were given by
their factories and for their own mini-services: never do tasks wait for each other in a round, and
whoever waits, waits in the end for a task that can go on. -/
theorem tasks_wait_in_order {duties : TaskId → Duty K ρ α} {g g' : Throng K α}
    (hduties : ∀ t, (duties t).IsConfined B) (hg : SetsOut duties g)
    (run : g.Becomes World.KeepsInners g') :
    (∀ t, ¬ Relation.TransGen g'.WaitsFor t t) ∧
      ∀ t, g'.IsWaiting t → ∃ u, Relation.TransGen g'.WaitsFor t u ∧ ¬ g'.IsWaiting u ∧
        answer? (g'.tasks u) = none := by
  have hgov : Governed (wary B) (fun _ => Having [] fun _ _ => True) g (fun _ => [])
      (.empty B g.world hg.cells hg.members) :=
    ⟨rfl, fun t => hg.tasks t ▸ Duty.tidy_action (hduties t)⟩
  have hbecomes : g'.Orderly ∧ ∃ held e,
      Governed (wary B) (fun _ => Having [] fun _ _ => True) g' held e ∧ g'.Kept held := by
    refine hgov.becomes (P := fun g held _ => g.Kept held) run (orderly_of_free hg.locks)
      (kept_of_free hg.locks) ?_ fun ho _ hkept hhappens => hkept.happens ho hhappens
    intro g held e w hkept hworld hothers
    rw [← hworld, world_wary] at hothers
    exact ⟨e.adjust w hothers, rfl, e.later_adjust w hothers, hkept.count, hkept.blocked⟩
  obtain ⟨ho, held, e, hgov', hkept⟩ := hbecomes
  refine ⟨not_waitsFor_round hgov' ho hkept, fun t ⟨cell, hline⟩ => ?_⟩
  obtain ⟨u, hu, hstill, hnonempty⟩ := exists_waitsFor_holder hgov' ho hkept hline
  exact ⟨u, hu, hstill, hgov'.answer?_eq_none hnonempty⟩

section Chain

open Rehearsal

def storeAndReader : Fleet.Registry kit :=
  let store : Casting := { label := "store", role := .probe { label := "store" } [] [] }
  let reader : Casting := { label := "reader", role := .probe { label := "reader" } ["store"] [] }
  ⟨[⟨.concrete "store" store.factory, none⟩,
    ⟨(Registry.Blueprint.concrete "reader" reader.factory).dependsOn "store", none⟩]⟩

theorem isConfined_storeAndReader : ∀ d ∈ storeAndReader.descriptors, d.IsConfined bounds := by
  have hplain {name : String} {c : Casting} {dependencies : List String} (hc : c.role.IsBare) :
      Registry.Descriptor.IsConfined bounds
        ⟨{ Registry.Blueprint.concrete name c.factory with dependencies }, none⟩ := by
    intro ctx factory isManager hkind
    obtain ⟨rfl, -⟩ := Registry.Kind.concrete.inj hkind
    exact c.isConfined_factory hc
  intro d hd
  rcases List.mem_cons.1 hd with rfl | hd
  · exact hplain trivial
  · obtain rfl := List.mem_singleton.1 hd
    exact hplain trivial

/-- The fleet is started, the reader and the store are built again, and somebody asks for the status
of the reader. -/
def readerErrands : TaskId → Errand kit Unit
  | 0 => .start storeAndReader {}
  | 1 => .visit (fun _ => 1) (.build .admin)
  | 2 => .visit (fun _ => 0) (.build .admin)
  | _ => .visit (fun _ => 1) .status

def readerComing : Throng kit Unit where
  world := {}
  tasks t := Duty.action (.call (readerErrands t) fun _ => .done ())

/-- When the fleet has been started, the build of the store is at work, that of the reader has come
to its need, and the status of the reader has been asked for. -/
def readerWaiting : Throng kit Unit :=
  readerComing.following
    (List.replicate 47 0 ++ List.replicate 3 2 ++ List.replicate 10 1 ++ List.replicate 2 3)

open Throng in
/-- Who asks for the status of the reader waits for its build, and that waits for the build of the
store, which can go on. -/
theorem tasks_wait_in_order_reader :
    (readerWaiting.WaitsFor 3 1 ∧ readerWaiting.WaitsFor 1 2) ∧
      (∀ t, ¬ Relation.TransGen readerWaiting.WaitsFor t t) ∧
      ∃ u, Relation.TransGen readerWaiting.WaitsFor 3 u ∧ ¬ readerWaiting.IsWaiting u ∧
        answer? (readerWaiting.tasks u) = none := by
  have hduties (t : TaskId) :
      Duty.IsConfined bounds (.call (readerErrands t) fun _ => .done () : Duty kit Unit Unit) := by
    refine ⟨?_, fun _ => trivial⟩
    match t with
    | 0 => exact ⟨by decide, isConfined_storeAndReader⟩
    | 1 | 2 | _ + 3 => trivial
  have hsetsOut : SetsOut (fun t => .call (readerErrands t) fun _ => .done ()) readerComing :=
    ⟨fun _ => rfl, rfl, rfl, fun _ => rfl⟩
  have hrun : readerComing.Becomes World.KeepsInners readerWaiting := becomes_following _ _
  obtain ⟨hround, hends⟩ := tasks_wait_in_order hduties hsetsOut hrun
  have hline : IsInLine (readerWaiting.locks 1) 3 := by decide +kernel
  have hline' : IsInLine (readerWaiting.locks 0) 1 := by decide +kernel
  have hholds : 1 ∈ (readerWaiting.locks 1).holders := by decide +kernel
  have hholds' : 2 ∈ (readerWaiting.locks 0).holders := by decide +kernel
  exact ⟨⟨⟨1, hline, .inl hholds⟩, ⟨0, hline', .inl hholds'⟩⟩, hround, hends 3 ⟨1, hline⟩⟩

end Chain

end Steward
