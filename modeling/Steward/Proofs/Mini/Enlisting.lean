import Mathlib.Data.List.Induction
import Steward.Mini.Store
/-!
Which mini-services a manager pools. Of each id it is the first one whose build pass did not abort
and did not end unavailable, and the counter keeps in step with the pool. To tell which
mini-services were made, and what their passes answered, changes nothing about how a store is
filled.
-/
namespace Steward.Mini

variable {ε μ : Type}

structure Made (ε : Type) where
  entity : ε
  cell : CellId
  answer : Except Fault Report

namespace Made

def status? (m : Made ε) : Option Status :=
  match m.answer with
  | .ok report => if report.status = .unavailable then none else some report.status
  | .error _ => none

def entry (idOf : ε → String) (m : Made ε) : Entry ε := ⟨idOf m.entity, m.entity, m.cell⟩

def IsFirst (idOf : ε → String) (before : List (Made ε)) (m : Made ε) : Prop :=
  m.status?.isSome = true ∧ ∀ m' ∈ before, idOf m'.entity = idOf m.entity → m'.status? = none

instance (idOf : ε → String) (before : List (Made ε)) (m : Made ε) :
    Decidable (m.IsFirst idOf before) :=
  inferInstanceAs (Decidable (_ ∧ _))

end Made

def firstsAfter (idOf : ε → String) : (before : List (Made ε)) → List (Made ε) → List (Made ε)
  | _, [] => []
  | before, m :: made =>
    if m.IsFirst idOf before then m :: firstsAfter idOf (before ++ [m]) made
    else firstsAfter idOf (before ++ [m]) made

def firsts (idOf : ε → String) (made : List (Made ε)) : List (Made ε) := firstsAfter idOf [] made

section Firsts

variable {idOf : ε → String} {before made : List (Made ε)} {m : Made ε}

theorem firstsAfter_append (before made made' : List (Made ε)) :
    firstsAfter idOf before (made ++ made') =
      firstsAfter idOf before made ++ firstsAfter idOf (before ++ made) made' := by
  induction made generalizing before with
  | nil => simp [firstsAfter]
  | cons m made ih =>
    simp only [List.cons_append, firstsAfter, ih, List.append_assoc, List.nil_append]
    split <;> rfl

theorem firsts_concat (made : List (Made ε)) (m : Made ε) :
    firsts idOf (made ++ [m]) = firsts idOf made ++ if m.IsFirst idOf made then [m] else [] := by
  rw [firsts, firstsAfter_append, List.nil_append]
  rfl

theorem firstsAfter_sublist (before made : List (Made ε)) :
    (firstsAfter idOf before made).Sublist made := by
  induction made generalizing before with
  | nil => exact .slnil
  | cons m made ih =>
    rw [firstsAfter]
    split
    · exact (ih _).cons_cons m
    · exact (ih _).cons m

theorem firsts_sublist (made : List (Made ε)) : (firsts idOf made).Sublist made :=
  firstsAfter_sublist [] made

theorem mem_firsts_of_isFirst {after : List (Made ε)} (h : m.IsFirst idOf before) :
    m ∈ firsts idOf (before ++ m :: after) := by
  rw [firsts, firstsAfter_append, List.nil_append, firstsAfter, if_pos h]
  simp

/-- Where no two are in the same cell, only those are among the first that are the first of their
ids. -/
theorem isFirst_of_mem_firsts {after : List (Made ε)}
    (hnodup : ((before ++ m :: after).map (·.cell)).Nodup)
    (h : m ∈ firsts idOf (before ++ m :: after)) : m.IsFirst idOf before := by
  rw [List.map_append, List.map_cons, List.nodup_append, List.nodup_cons] at hnodup
  obtain ⟨-, ⟨hafter, -⟩, hbefore⟩ := hnodup
  by_contra hnot
  rw [firsts, firstsAfter_append, List.nil_append, firstsAfter, if_neg hnot, List.mem_append] at h
  obtain h | h := h
  · have hmem : m ∈ before := (firsts_sublist before).mem h
    exact hbefore _ (List.mem_map_of_mem hmem) _ List.mem_cons_self rfl
  · exact hafter (List.mem_map_of_mem ((firstsAfter_sublist _ after).mem h))

theorem isSome_of_mem_firsts (h : m ∈ firsts idOf made) : m.status?.isSome = true := by
  induction made using List.reverseRecOn with
  | nil => nomatch h
  | append_singleton made m' ih =>
    rw [firsts_concat, List.mem_append] at h
    obtain h | h := h
    · exact ih h
    · split at h
      · obtain rfl := List.mem_singleton.1 h
        exact ‹m.IsFirst idOf made›.1
      · nomatch h

theorem exists_mem_firsts {id : String} :
    (∃ m ∈ firsts idOf made, idOf m.entity = id) ↔
      ∃ m ∈ made, idOf m.entity = id ∧ m.status? ≠ none := by
  constructor
  · rintro ⟨m, hm, hid⟩
    exact ⟨m, (firsts_sublist made).mem hm, hid,
      Option.isSome_iff_ne_none.1 (isSome_of_mem_firsts hm)⟩
  · intro h
    induction made using List.reverseRecOn with
    | nil => exact h.elim fun m hm => (List.not_mem_nil hm.1).elim
    | append_singleton made m ih =>
      rw [firsts_concat]
      by_cases hbefore : ∃ m ∈ made, idOf m.entity = id ∧ m.status? ≠ none
      · exact (ih hbefore).imp fun m₁ hm₁ => ⟨List.mem_append_left _ hm₁.1, hm₁.2⟩
      · obtain ⟨m₁, hm₁, hid, hfit⟩ := h
        obtain hm₁ | hm₁ := List.mem_append.1 hm₁
        · exact absurd ⟨m₁, hm₁, hid, hfit⟩ hbefore
        · obtain rfl := List.mem_singleton.1 hm₁
          have hfirst : m₁.IsFirst idOf made :=
            ⟨Option.isSome_iff_ne_none.2 hfit, fun m' hm' hid' => by_contra fun hfit' =>
              hbefore ⟨m', hm', hid'.trans hid, hfit'⟩⟩
          rw [if_pos hfirst]
          exact ⟨m₁, List.mem_append_right _ List.mem_cons_self, hid⟩

end Firsts

def settle (idOf : ε → String) (s : Store ε) (counter : Counter) (m : Made ε) :
    PoolHook μ (Store ε × Counter) :=
  match m.answer with
  | .ok report =>
    if report.status = .unavailable then do
      return (s, ← Store.leaveOut counter m.cell
        (.miniUnusable s.manager (idOf m.entity) report.status))
    else
      match s.add (m.entry idOf) with
      | .ok s => return (s, counter.record report.status)
      | .error fault => do
        return (s, ← Store.leaveOut counter m.cell
          (.miniRefused s.manager (idOf m.entity) fault.message))
  | .error fault => do
    return (s, ← Store.leaveOut counter m.cell
      (.miniAborted s.manager (idOf m.entity) fault.message))

theorem enlist_eq (idOf : ε → String) (make : ε → μ) (token : Token) (s : Store ε)
    (counter : Counter) (entity : ε) :
    s.enlist idOf make token counter entity = (do
      let cell ← PoolHook.enroll (idOf entity) (make entity)
      let answer ← PoolHook.build cell token
      settle idOf s counter ⟨entity, cell, answer⟩) := rfl

def settled (idOf : ε → String) (r : Store ε × Counter) (m : Made ε) : Store ε × Counter :=
  match m.status? with
  | some status =>
    if r.1.contains (idOf m.entity) then (r.1, r.2.leaveOut)
    else ({ r.1 with entries := r.1.entries ++ [m.entry idOf] }, r.2.record status)
  | none => (r.1, r.2.leaveOut)

def Kept (idOf : ε → String) (s : Store ε) (m : Made ε) : Prop :=
  m.status?.isSome = true ∧ s.contains (idOf m.entity) = false

section Settle

variable {idOf : ε → String} {s : Store ε} {counter : Counter} {m : Made ε}

theorem settle_cases (idOf : ε → String) (s : Store ε) (counter : Counter) (m : Made ε) :
    (Kept idOf s m ∧
      (settle idOf s counter m : PoolHook μ _) = pure (settled idOf (s, counter) m)) ∨
    (¬ Kept idOf s m ∧ ∃ notice, (settle idOf s counter m : PoolHook μ _) = (do
      PoolHook.report notice
      PoolHook.destroy m.cell
      return settled idOf (s, counter) m)) := by
  obtain ⟨entity, cell, answer⟩ := m
  cases answer with
  | error fault => exact .inr ⟨fun h => Bool.false_ne_true h.1, _, rfl⟩
  | ok report =>
    by_cases hstatus : report.status = .unavailable
    · have hunfit : (⟨entity, cell, .ok report⟩ : Made ε).status? = none := if_pos hstatus
      refine .inr ⟨fun h => ?_, .miniUnusable s.manager (idOf entity) report.status, ?_⟩
      · rw [Kept, hunfit] at h
        exact Bool.false_ne_true h.1
      · simp only [settle, if_pos hstatus, settled, hunfit]
        rfl
    · have hfit : (⟨entity, cell, .ok report⟩ : Made ε).status? = some report.status :=
        if_neg hstatus
      cases htaken : s.contains (idOf entity) with
      | true =>
        refine .inr ⟨fun h => ?_, .miniRefused s.manager (idOf entity)
          (Fault.miniServiceAlreadyExists s.manager (idOf entity)).message, ?_⟩
        · exact Bool.false_ne_true (h.2.symm.trans htaken)
        · simp only [settle, if_neg hstatus, settled, hfit, Store.add, Made.entry, htaken]
          rfl
      | false =>
        refine .inl ⟨⟨by rw [hfit]; rfl, htaken⟩, ?_⟩
        simp only [settle, if_neg hstatus, settled, hfit, Store.add, Made.entry, htaken]
        rfl

structure Tallies (idOf : ε → String) (expected : Nat) (made : List (Made ε))
    (r : Store ε × Counter) : Prop where
  entries : r.1.entries = (firsts idOf made).map (Made.entry idOf)
  recorded : r.2.recorded.map some = (firsts idOf made).map Made.status?
  omitted : r.2.omitted + (firsts idOf made).length = made.length
  expected : r.2.expected = expected

theorem Tallies.contains {expected : Nat} {made : List (Made ε)} {r : Store ε × Counter}
    (h : Tallies idOf expected made r) (id : String) :
    r.1.contains id = true ↔ ∃ m ∈ made, idOf m.entity = id ∧ m.status? ≠ none := by
  rw [← exists_mem_firsts, Store.contains, h.entries, List.any_map, List.any_eq_true]
  simp only [Function.comp, Made.entry, beq_iff_eq]

theorem Tallies.kept_iff {expected : Nat} {made : List (Made ε)} {r : Store ε × Counter}
    (h : Tallies idOf expected made r) : Kept idOf r.1 m ↔ m.IsFirst idOf made := by
  refine and_congr_right fun _ => ?_
  rw [← Bool.not_eq_true, h.contains]
  simp only [not_exists, not_and, not_not]

theorem Tallies.settled {expected : Nat} {made : List (Made ε)} {r : Store ε × Counter}
    (h : Tallies idOf expected made r) (m : Made ε) :
    Tallies idOf expected (made ++ [m]) (settled idOf r m) := by
  have hlength := h.omitted
  by_cases hkept : Kept idOf r.1 m
  · have hfirst : m.IsFirst idOf made := h.kept_iff.1 hkept
    obtain ⟨status, hstatus⟩ := Option.isSome_iff_exists.1 hkept.1
    have hsettled : Mini.settled idOf r m =
        ({ r.1 with entries := r.1.entries ++ [m.entry idOf] }, r.2.record status) := by
      simp only [Mini.settled, hstatus, hkept.2, Bool.false_eq_true, if_false]
    rw [hsettled]
    refine ⟨?_, ?_, ?_, h.expected⟩
    · simp [firsts_concat, hfirst, h.entries]
    · simp [firsts_concat, hfirst, Counter.record, h.recorded, hstatus]
    · simp [firsts_concat, hfirst, Counter.record]
      omega
  · have hfirst : ¬ m.IsFirst idOf made := fun hm => hkept (h.kept_iff.2 hm)
    have hsettled : Mini.settled idOf r m = (r.1, r.2.leaveOut) := by
      unfold Mini.settled
      split
      · rename_i status hstatus
        refine if_pos (Bool.not_eq_false _ ▸ fun hfree => hkept ⟨by rw [hstatus]; rfl, hfree⟩)
      · rfl
    rw [hsettled]
    refine ⟨?_, ?_, ?_, h.expected⟩
    · simp [firsts_concat, hfirst, h.entries]
    · simp [firsts_concat, hfirst, Counter.leaveOut, h.recorded]
    · simp [firsts_concat, hfirst, Counter.leaveOut]
      omega

def settleAll (idOf : ε → String) (r : Store ε × Counter) (made : List (Made ε)) :
    Store ε × Counter :=
  made.foldl (Mini.settled idOf) r

theorem tallies_settleAll (idOf : ε → String) (manager : String) (expected : Nat)
    (made : List (Made ε)) :
    Tallies idOf expected made (settleAll idOf (⟨manager, []⟩, .expecting expected) made) := by
  induction made using List.reverseRecOn with
  | nil => exact ⟨rfl, rfl, rfl, rfl⟩
  | append_singleton made m ih =>
    rw [settleAll, List.foldl_append]
    exact ih.settled m

end Settle

def IsWorst (statuses : List Status) (s : Status) : Prop :=
  s ∈ statuses ∧ ∀ t ∈ statuses, t.severity ≤ s.severity

theorem isWorst_foldl (s : Status) (statuses : List Status) :
    IsWorst (s :: statuses) (statuses.foldl Status.worst s) := by
  induction statuses generalizing s with
  | nil => exact ⟨List.mem_cons_self, by simp⟩
  | cons t statuses ih =>
    obtain ⟨hmem, hworst⟩ := ih (s.worst t)
    have hst : (s.worst t).severity ≤ (statuses.foldl Status.worst (s.worst t)).severity :=
      hworst _ List.mem_cons_self
    rw [Status.severity_worst] at hst
    refine ⟨?_, ?_⟩
    · obtain h | h := List.mem_cons.1 hmem
      · rw [List.foldl_cons, h, Status.worst]
        split <;> simp
      · exact List.mem_cons_of_mem s (List.mem_cons_of_mem t h)
    · simp only [List.forall_mem_cons, List.foldl_cons]
      exact ⟨by omega, by omega, fun u hu => hworst u (List.mem_cons_of_mem _ hu)⟩

theorem Counter.isWorst_status {c : Counter} (h : c.recorded ≠ []) :
    IsWorst c.recorded c.status := by
  obtain ⟨s, statuses, hrecorded⟩ := List.exists_cons_of_ne_nil h
  have hbuilt : c.built ≠ 0 := by simp [built, hrecorded]
  rw [status, if_neg (by simp [hbuilt]), hrecorded, List.foldl_cons, Status.available_worst]
  exact isWorst_foldl s statuses

theorem IsWorst.eq {statuses statuses' : List Status} {s s' : Status} (h : IsWorst statuses s)
    (h' : IsWorst statuses' s') (hsame : ∀ t, t ∈ statuses ↔ t ∈ statuses') : s = s' :=
  Status.severity_injective
    (Nat.le_antisymm (h'.2 s ((hsame s).1 h.1)) (h.2 s' ((hsame s').2 h'.1)))

theorem Counter.status_eq_of_perm {c c' : Counter} (hexpected : c.expected = c'.expected)
    (h : c.recorded.Perm c'.recorded) : c.status = c'.status := by
  by_cases hnone : c'.recorded = []
  · have hnone' : c.recorded = [] := List.perm_nil.1 (hnone ▸ h)
    simp only [status, built, hnone, hnone', hexpected]
  · have hsome : c.recorded ≠ [] := fun hnone' => hnone (List.nil_perm.1 (hnone' ▸ h))
    exact (isWorst_status hsome).eq (isWorst_status hnone) fun t => h.mem_iff

theorem severity_le_statusWith (outcome : Outcome) (s : Status) :
    s.severity ≤ (outcome.statusWith (some s)).severity := by
  have hmost : s.severity ≤ Status.unavailable.severity := by cases s <;> decide
  cases outcome with
  | ok => exact Nat.le_refl _
  | warning => exact (Status.severity_worst .degraded s).symm ▸ Nat.le_max_right ..
  | skip => exact (Status.severity_worst .degraded s).symm ▸ Nat.le_max_right ..
  | failure => exact hmost
  | abort => exact hmost

def enlistTold (idOf : ε → String) (make : ε → μ) (token : Token) (s : Store ε)
    (counter : Counter) (entity : ε) : PoolHook μ ((Store ε × Counter) × Made ε) := do
  let cell ← PoolHook.enroll (idOf entity) (make entity)
  let answer ← PoolHook.build cell token
  let m : Made ε := ⟨entity, cell, answer⟩
  let r ← settle idOf s counter m
  return (r, m)

def enlistAllTold (idOf : ε → String) (make : ε → μ) (token : Token) :
    List ε → Store ε → Counter → PoolHook μ ((Store ε × Counter) × List (Made ε))
  | [], s, counter => return ((s, counter), [])
  | entity :: rest, s, counter => do
    let (r, m) ← enlistTold idOf make token s counter entity
    let (r, made) ← enlistAllTold idOf make token rest r.1 r.2
    return (r, m :: made)

def populateTold (idOf : ε → String) (make : ε → μ) (entities : List ε) (token : Token)
    (s : Store ε) : PoolHook μ ((Store ε × Counter) × List (Made ε)) := do
  Store.destroyCells (s.entries.map (·.cell))
  enlistAllTold idOf make token entities s.clear (.expecting entities.length)

theorem map_enlistAllTold (idOf : ε → String) (make : ε → μ) (token : Token) (entities : List ε)
    (s : Store ε) (counter : Counter) :
    Prod.fst <$> (enlistAllTold idOf make token entities s counter) =
      Store.enlistAll idOf make token entities s counter := by
  induction entities generalizing s counter with
  | nil => rfl
  | cons entity rest ih =>
    simp only [enlistAllTold, Store.enlistAll, ← ih, enlist_eq, enlistTold, map_bind, map_pure,
      bind_assoc, pure_bind]
    simp only [map_eq_pure_bind]

theorem map_populateTold (idOf : ε → String) (make : ε → μ) (entities : List ε) (token : Token)
    (s : Store ε) :
    Prod.fst <$> (populateTold idOf make entities token s) =
      s.populate idOf make entities token := by
  simp only [populateTold, Store.populate, Store.destroyAll, map_bind, map_enlistAllTold,
    bind_assoc, pure_bind]

end Steward.Mini
