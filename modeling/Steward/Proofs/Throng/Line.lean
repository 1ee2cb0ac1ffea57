import Mathlib.Data.List.Count
import Mathlib.Data.List.Nodup
import Steward.Proofs.Throng.Basic
/-!
Who holds a lock of a throng and who waits for it. Whoever stands in the line of a lock is about to
acquire it, once; the head of a line cannot be let in yet.
-/
namespace Steward

namespace Lock

variable {l : Lock} {t u : TaskId} {access : Access} {line : List (TaskId × Access)}

def holders (l : Lock) : List TaskId := l.writer.toList ++ l.readers

@[simp] theorem holders_free : free.holders = [] := rfl

@[simp] theorem line_free : free.line = [] := rfl

@[simp] theorem line_grant : (l.grant t access).line = l.line := by
  cases access <;> rfl

theorem count_holders_grant (h : l.allows access = true) :
    (l.grant t access).holders.count u = l.holders.count u + [t].count u := by
  cases access with
  | read => simp [grant, holders, List.count_cons, Nat.add_assoc]
  | write =>
    simp only [allows, Bool.and_eq_true, Option.isNone_iff_eq_none] at h
    simp [grant, holders, h.1, List.count_cons]

theorem count_holders_leave (h : t ∈ l.holders) :
    (l.leave t).holders.count u + [t].count u = l.holders.count u := by
  unfold leave
  split
  · rename_i hwriter
    simp [holders, hwriter, List.count_cons]
  · rename_i hwriter
    have hmem : t ∈ l.readers := by
      simpa [holders, hwriter] using h
    have hreaders := (List.perm_cons_erase hmem).count_eq u
    simp only [holders, List.count_append, hreaders, List.count_cons, List.count_nil]
    omega

theorem line_leave : (l.leave t).line = l.line := by
  unfold leave
  split <;> rfl

theorem letIn_split (line : List (TaskId × Access)) (l : Lock) :
    ∃ taken, line = taken ++ (letIn line l).1.line ∧ (letIn line l).2 = taken.map (·.1) := by
  induction line generalizing l with
  | nil => exact ⟨[], rfl, rfl⟩
  | cons head rest ih =>
    unfold letIn
    split
    · obtain ⟨taken, hline, hadmitted⟩ := ih (l.grant head.1 head.2)
      exact ⟨head :: taken, by simpa using hline, by simpa using hadmitted⟩
    · exact ⟨[], rfl, rfl⟩

theorem count_holders_letIn (line : List (TaskId × Access)) (l : Lock) :
    (letIn line l).1.holders.count u = l.holders.count u + (letIn line l).2.count u := by
  induction line generalizing l with
  | nil => rfl
  | cons head rest ih =>
    unfold letIn
    split
    · rename_i hallows
      have hgrant := count_holders_grant (t := head.1) (u := u) hallows
      simp only [ih, hgrant, List.count_cons, List.count_nil]
      omega
    · rfl

theorem release_split (l : Lock) (t : TaskId) :
    ∃ taken, l.line = taken ++ (l.release t).1.line ∧ (l.release t).2 = taken.map (·.1) := by
  obtain ⟨taken, hline, hadmitted⟩ := letIn_split (l.leave t).line (l.leave t)
  exact ⟨taken, line_leave.symm.trans hline, hadmitted⟩

theorem count_holders_release (h : t ∈ l.holders) :
    (l.release t).1.holders.count u + [t].count u =
      l.holders.count u + (l.release t).2.count u := by
  have hin := count_holders_letIn (u := u) (l.leave t).line (l.leave t)
  have hout := count_holders_leave (u := u) h
  rw [release, hin]
  omega

def Blocked (l : Lock) : Prop := ∀ head ∈ l.line.head?, l.allows head.2 = false

theorem blocked_free : free.Blocked := by simp [Blocked]

theorem blocked_letIn (line : List (TaskId × Access)) (l : Lock) : (letIn line l).1.Blocked := by
  induction line generalizing l with
  | nil => simp [letIn, Blocked]
  | cons head rest ih =>
    unfold letIn
    split
    · exact ih _
    · rename_i hallows
      intro first hfirst
      obtain rfl : head = first := by simpa using hfirst
      simpa [allows] using hallows

theorem blocked_grant (h : l.meets access = true) : (l.grant t access).Blocked := by
  have hline : l.line = [] := by
    simp only [meets, Bool.and_eq_true, List.isEmpty_iff] at h
    exact h.1
  simp [Blocked, hline]

theorem blocked_request (h : l.Blocked) (hmeets : l.meets access = false) :
    (l.request t access).Blocked := by
  rw [request, if_neg (by simp [hmeets])]
  intro head hhead
  cases hline : l.line with
  | nil =>
    obtain rfl : (t, access) = head := by simpa [hline] using hhead
    cases access <;> simpa [meets, hline, allows] using hmeets
  | cons first rest =>
    obtain rfl : first = head := by simpa [hline] using hhead
    have hfirst := h first (by simp [hline])
    cases hfirst' : first.2 <;> simpa [allows, hfirst'] using hfirst

theorem exists_mem_holders (h : l.allows access = false) : ∃ u, u ∈ l.holders := by
  cases hwriter : l.writer with
  | some u => exact ⟨u, by simp [holders, hwriter]⟩
  | none =>
    cases access with
    | read => simp [allows, hwriter] at h
    | write =>
      cases hreaders : l.readers with
      | nil => simp [allows, hwriter, hreaders] at h
      | cons u rest => exact ⟨u, by simp [holders, hreaders]⟩

end Lock

variable {K : Kit} {α : Type}

namespace Throng

variable {others : World K → World K → Prop} {g g' : Throng K α} {t u : TaskId}

structure Orderly (g : Throng K α) : Prop where
  wanted : ∀ cell u access, (u, access) ∈ (g.locks cell).line →
    wanted? (g.tasks u) = some (cell, access)
  nodup : ∀ cell, ((g.locks cell).line.map (·.1)).Nodup

theorem isInLine_iff {l : Lock} : IsInLine l t ↔ ∃ access, (t, access) ∈ l.line := by
  simp [IsInLine]

theorem Orderly.setTask (h : g.Orderly) (ht : wanted? (g.tasks t) = none) (p : Action K α) :
    (g.setTask t p).Orderly where
  wanted cell u access hu := by
    have hwanted := h.wanted cell u access hu
    rwa [tasks_setTask, if_neg]
    rintro rfl
    rw [ht] at hwanted
    cases hwanted
  nodup := h.nodup

theorem Orderly.setLock {cell : CellId} {lock : Lock} (h : g.Orderly)
    (hlock : ∀ u access, (u, access) ∈ lock.line → wanted? (g.tasks u) = some (cell, access))
    (hnodup : (lock.line.map (·.1)).Nodup) : (g.setLock cell lock).Orderly where
  wanted other u access hu := by
    rw [locks_setLock] at hu
    split at hu
    · rename_i hcell
      exact hcell ▸ hlock u access hu
    · exact h.wanted other u access hu
  nodup other := by
    rw [locks_setLock]
    split
    · exact hnodup
    · exact h.nodup other

theorem Orderly.enter {cell : CellId} {access : Access} (h : g.Orderly)
    (ht : wanted? (g.tasks t) = some (cell, access)) (hline : ¬ IsInLine (g.locks cell) t)
    (p : Action K α) :
    ((g.setTask t p).setLock cell ((g.locks cell).grant t access)).Orderly := by
  have hset : (g.setTask t p).Orderly := by
    refine ⟨fun other u access' hu => ?_, h.nodup⟩
    have hwanted := h.wanted other u access' hu
    rwa [tasks_setTask, if_neg]
    rintro rfl
    -- the lock that the task wants is this one, in whose line it does not stand
    rw [ht] at hwanted
    cases hwanted
    exact hline (isInLine_iff.2 ⟨_, hu⟩)
  refine hset.setLock (fun u access' hu => ?_) ?_
  · rw [Lock.line_grant] at hu
    exact hset.wanted cell u access' hu
  · rw [Lock.line_grant]
    exact h.nodup cell

theorem Orderly.lineUp {cell : CellId} {access : Access} (h : g.Orderly)
    (ht : wanted? (g.tasks t) = some (cell, access)) (hline : ¬ IsInLine (g.locks cell) t)
    (hmeets : (g.locks cell).meets access = false) :
    (g.setLock cell ((g.locks cell).request t access)).Orderly := by
  rw [Lock.request, if_neg (by simp [hmeets])]
  refine h.setLock (fun u access' hu => ?_) ?_
  · rcases List.mem_append.1 hu with hu | hu
    · exact h.wanted cell u access' hu
    · obtain ⟨rfl, rfl⟩ : u = t ∧ access' = access := by simpa using hu
      exact ht
  · rw [List.map_append, List.map_singleton, ← List.concat_eq_append]
    exact (h.nodup cell).concat hline

theorem Orderly.exists_wanted_of_admitted {cell : CellId} (h : g.Orderly)
    (hu : u ∈ ((g.locks cell).release t).2) :
    ∃ access, wanted? (g.tasks u) = some (cell, access) := by
  obtain ⟨taken, hline, hadmitted⟩ := Lock.release_split (g.locks cell) t
  rw [hadmitted] at hu
  obtain ⟨⟨u, access⟩, htaken, rfl⟩ := List.mem_map.1 hu
  exact ⟨access, h.wanted cell u access (hline ▸ List.mem_append_left _ htaken)⟩

theorem Orderly.ne_of_admitted {cell : CellId} (h : g.Orderly) (ht : wanted? (g.tasks t) = none)
    (hu : u ∈ ((g.locks cell).release t).2) : u ≠ t := by
  obtain ⟨access, hwanted⟩ := h.exists_wanted_of_admitted hu
  rintro rfl
  rw [ht] at hwanted
  cases hwanted

theorem Orderly.nodup_admitted (h : g.Orderly) (cell : CellId) (t : TaskId) :
    ((g.locks cell).release t).2.Nodup := by
  obtain ⟨taken, hline, hadmitted⟩ := Lock.release_split (g.locks cell) t
  have hnodup := h.nodup cell
  rw [hline, List.map_append, List.nodup_append] at hnodup
  exact hadmitted ▸ hnodup.1

theorem Orderly.release (h : g.Orderly) (ht : wanted? (g.tasks t) = none) (cell : CellId)
    (p : Action K α) :
    (((g.setTask t p).setLock cell ((g.locks cell).release t).1).letIn
      ((g.locks cell).release t).2).Orderly := by
  have hset : (g.setTask t p).Orderly := h.setTask ht p
  obtain ⟨taken, hline, hadmitted⟩ := Lock.release_split (g.locks cell) t
  have hnodup := h.nodup cell
  rw [hline, List.map_append, List.nodup_append] at hnodup
  have hstill : ((g.setTask t p).setLock cell ((g.locks cell).release t).1).Orderly := by
    refine hset.setLock (fun u access hu => hset.wanted cell u access ?_) hnodup.2.1
    rw [locks_setTask, hline]
    exact List.mem_append_right _ hu
  refine ⟨fun other u access hu => ?_, hstill.nodup⟩
  have hwanted := hstill.wanted other u access hu
  rwa [tasks_letIn, if_neg]
  intro hmem
  obtain ⟨access', hwanted'⟩ := h.exists_wanted_of_admitted hmem
  rw [tasks_setLock, tasks_setTask, if_neg (h.ne_of_admitted ht hmem), hwanted'] at hwanted
  cases hwanted
  rw [locks_letIn, locks_setLock, if_pos rfl] at hu
  exact hnodup.2.2 _ (hadmitted ▸ hmem) _ (List.mem_map_of_mem hu) rfl

theorem Orderly.advance {isCancelled : Bool} (h : g.Orderly)
    (hadvance : g.advance t isCancelled = some g') : g'.Orderly := by
  unfold Throng.advance at hadvance
  split at hadvance
  · cases hadvance
  · rename_i f next ht
    cases hadvance
    exact ⟨(h.setTask (by rw [ht]; rfl) _).wanted, h.nodup⟩
  · rename_i what next ht
    cases hadvance
    exact ⟨(h.setTask (by rw [ht]; rfl) _).wanted, h.nodup⟩
  · rename_i cell access next ht
    have hwanted : wanted? (g.tasks t) = some (cell, access) := by rw [ht]; rfl
    split at hadvance
    · cases hadvance
    rename_i hline
    split at hadvance
    · cases hadvance
      exact h.enter hwanted hline _
    · rename_i hmeets
      cases hadvance
      exact h.lineUp hwanted hline (by simpa using hmeets)
  · rename_i cell next ht
    cases hadvance
    exact h.release (by rw [ht]; rfl) cell _
  · rename_i millis next ht
    cases hadvance
    exact h.setTask (by rw [ht]; rfl) _
  · rename_i millis next ht
    cases hadvance
    exact h.setTask (by rw [ht]; rfl) _
  · cases hadvance

theorem Orderly.step (h : g.Orderly) (hstep : Step others g g') : g'.Orderly := by
  cases hstep with
  | others _ => exact ⟨h.wanted, h.nodup⟩
  | task t isCancelled hadvance => exact h.advance hadvance

theorem orderly_of_free (h : ∀ cell, g.locks cell = .free) : g.Orderly where
  wanted cell u access hu := by simp [h] at hu
  nodup cell := by simp [h]

end Throng

end Steward
