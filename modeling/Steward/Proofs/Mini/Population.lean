import Mathlib.Data.List.Count
import Steward.Proofs.Cell.Tending
import Steward.Proofs.Mini.Enlisting
import Steward.Rehearsal.Kit
/-!
Filling a pool of mini-services. Whatever their hooks do, those that come into the pool stand where
their reports say and were never torn down; all others that were made, and all that were in the pool
before, are destroyed.
-/
namespace Steward.Mini

open Steward.Action World Cell

variable {K : Kit} {ε : Type}

def teardowns (calls : Calls K) (cell : CellId) : Nat :=
  (calls.map (·.1)).count (.destroyMini cell)

@[simp] theorem teardowns_nil (cell : CellId) : teardowns ([] : Calls K) cell = 0 := rfl

@[simp] theorem teardowns_append (before after : Calls K) (cell : CellId) :
    teardowns (before ++ after) cell = teardowns before cell + teardowns after cell := by
  simp [teardowns]

theorem teardowns_eq_zero_of_forall {calls : Calls K} {cell : CellId}
    (h : ∀ call ∈ calls, call.1 ≠ .destroyMini cell) : teardowns calls cell = 0 := by
  refine List.count_eq_zero.2 fun hmem => ?_
  obtain ⟨call, hcall, heq⟩ := List.mem_map.1 hmem
  exact h call hcall heq

theorem teardowns_eq_zero {calls : Calls K} {cell : CellId} {what : Invocation}
    (h : ∀ call ∈ calls, call.1 = what) (hwhat : what ≠ .destroyMini cell) :
    teardowns calls cell = 0 :=
  teardowns_eq_zero_of_forall fun call hcall => h call hcall ▸ hwhat

namespace Made

def IsPooled (m : Made ε) (calls : Calls K) (v : World K) : Prop :=
  (∃ face, v.face? m.cell = some face ∧ face.standing.destroyed = false ∧
    m.status? = some face.standing.status) ∧ teardowns calls m.cell = 0

def IsGone (m : Made ε) (calls : Calls K) (v : World K) : Prop :=
  (∃ face, v.face? m.cell = some face ∧ face.standing.destroyed = true) ∧
    teardowns calls m.cell = 1

def Fares (kept : Prop) (m : Made ε) (calls : Calls K) (v : World K) : Prop :=
  (kept → m.IsPooled calls v) ∧ (¬ kept → m.IsGone calls v)

variable {m : Made ε} {kept : Prop} {before calls : Calls K} {u v : World K}

theorem Fares.exists_face (h : m.Fares kept calls v) : ∃ face, v.face? m.cell = some face := by
  by_cases hkept : kept
  · obtain ⟨⟨face, hface, -⟩, -⟩ := h.1 hkept
    exact ⟨face, hface⟩
  · obtain ⟨⟨face, hface, -⟩, -⟩ := h.2 hkept
    exact ⟨face, hface⟩

theorem Fares.later (h : m.Fares kept before u) (hspares : Spares m.cell u v)
    (hcalls : teardowns calls m.cell = 0) : m.Fares kept (before ++ calls) v := by
  refine ⟨fun hkept => ?_, fun hkept => ?_⟩
  · obtain ⟨⟨face, hface, hrest⟩, hnone⟩ := h.1 hkept
    exact ⟨⟨face, hspares _ hface, hrest⟩, by rw [teardowns_append, hnone, hcalls]⟩
  · obtain ⟨⟨face, hface, hrest⟩, honce⟩ := h.2 hkept
    exact ⟨⟨face, hspares _ hface, hrest⟩, by rw [teardowns_append, honce, hcalls]⟩

theorem IsPooled.after (h : m.IsPooled calls v) (hbefore : teardowns before m.cell = 0) :
    m.IsPooled (before ++ calls) v := ⟨h.1, by rw [teardowns_append, hbefore, h.2]⟩

theorem IsGone.after (h : m.IsGone calls v) (hbefore : teardowns before m.cell = 0) :
    m.IsGone (before ++ calls) v := ⟨h.1, by rw [teardowns_append, hbefore, h.2]⟩

theorem Fares.after (h : m.Fares kept calls v) (hbefore : teardowns before m.cell = 0) :
    m.Fares kept (before ++ calls) v :=
  ⟨fun hkept => (h.1 hkept).after hbefore, fun hkept => (h.2 hkept).after hbefore⟩

theorem Fares.congr {kept' : Prop} (h : m.Fares kept calls v) (hkept : kept ↔ kept') :
    m.Fares kept' calls v := by rwa [← hkept]

end Made

section Meets

variable {ours : CellId → Prop} {w : World K} {s : Store ε} {counter : Counter}

theorem face?_addCell_size (w : World K) (c : Cell K) :
    (w.addCell c).face? w.cells.size = some c.face := by
  refine face?_of_cell? ?_
  rw [cell?, addCell, Array.getElem?_push_size]

theorem lt_size_of_face? {id : CellId} {face : Face} (h : w.face? id = some face) :
    id < w.cells.size := by
  obtain ⟨c, hc, -⟩ := exists_cell_of_face? h
  exact (Array.getElem?_eq_some_iff.1 hc).1

theorem Made.isPooled_of_answer {m : Made ε} {name : String} {report : Report}
    {standing : Standing} {disabled : List String} {calls : Calls K} {v : World K} {isMini : Bool}
    (hanswer : m.answer = answerOf name report) (hfit : m.status?.isSome = true)
    (hv : v.face? m.cell = some ⟨name, isMini, standing.endBuild report disabled⟩)
    (hcalls : teardowns calls m.cell = 0) : m.IsPooled calls v := by
  have hok : m.answer = .ok report := by
    unfold answerOf at hanswer
    split at hanswer
    · rw [status?, hanswer] at hfit
      exact (Bool.false_ne_true hfit).elim
    · exact hanswer
  have hstatus : m.status? = if report.status = .unavailable then none else some report.status := by
    rw [status?, hok]
  have hne : report.status ≠ .unavailable := fun heq => by
    rw [hstatus, if_pos heq] at hfit
    exact Bool.false_ne_true hfit
  exact ⟨⟨_, hv, rfl, hstatus.trans (if_neg hne)⟩, hcalls⟩

/-- One entity: its mini-service is a new cell, and fares as the pool says; no other cell is
touched. -/
theorem meets_enlistTold (idOf : ε → String) (make : ε → K.Mini) (token : Token) (entity : ε) :
    Meets (tending ours) ((enlistTold idOf make token s counter entity).interpret carryPool)
      (fun calls r v => r.2.entity = entity ∧ r.1 = settled idOf (s, counter) r.2 ∧
        (∀ id face, ours id → w.face? id = some face → r.2.cell ≠ id) ∧
        (∀ id, ours id → r.2.cell ≠ id → Spares id w v ∧ teardowns calls id = 0) ∧
        (ours r.2.cell → r.2.Fares (Kept idOf s r.2) calls v)) w := by
  refine Meets.getModify fun u hu => ⟨trivial, ?_⟩
  have hnew : (u.addCell { name := idOf entity, inner := .mini (make entity) }).face?
      u.cells.size = some ⟨idOf entity, true, {}⟩ := face?_addCell_size u _
  have hadd : ∀ id, ours id → Spares id w
      (u.addCell { name := idOf entity, inner := .mini (make entity) }) := fun id hid =>
    (hu id hid).trans (spares_addCell u _)
  have hfresh : ∀ id face, ours id → w.face? id = some face → u.cells.size ≠ id :=
    fun id face hid hface => (Nat.ne_of_lt (lt_size_of_face? (hu id hid _ hface))).symm
  generalize u.addCell { name := idOf entity, inner := .mini (make entity) } = u' at hnew hadd
  generalize u.cells.size = cell at hnew hfresh ⊢
  show Meets (tending ours) (carryPool (.build cell token) >>= fun answer =>
    (settle idOf s counter ⟨entity, cell, answer⟩ >>= fun r =>
      pure (r, (⟨entity, cell, answer⟩ : Made ε))).interpret carryPool) _ _
  refine Meets.seq (tends_build token) fun before answer x _ ⟨hbefore, hspares, hhere⟩ => ?_
  have hnone : ∀ id, teardowns before id = 0 := fun id => teardowns_eq_zero hbefore nofun
  obtain ⟨hkept, hsettle⟩ | ⟨hkept, notice, hsettle⟩ :=
    settle_cases idOf s counter ⟨entity, cell, answer⟩
  · rw [hsettle]
    refine Meets.pure fun v hv => ⟨rfl, rfl, hfresh, fun id hid hne => ⟨?_, ?_⟩, fun hours => ?_⟩
    · exact (hadd id hid).trans ((hspares id hid hne).trans (hv id hid))
    · rw [List.append_nil, hnone]
    · obtain ⟨report, disabled, hanswer, hx⟩ := hhere _ hours hnew rfl
      refine ⟨fun _ => ?_, fun h => absurd hkept h⟩
      exact Made.isPooled_of_answer hanswer hkept.1 (hv cell hours _ hx)
        (by rw [List.append_nil, hnone])
  · rw [hsettle]
    refine Meets.modify fun y hy => ⟨trivial, ?_⟩
    refine Meets.seq tends_destroy fun after _ z _ ⟨hafter, hspares', hhere'⟩ => ?_
    refine Meets.pure fun v hv => ⟨rfl, rfl, hfresh, fun id hid hne => ⟨?_, ?_⟩, fun hours => ?_⟩
    · exact (hadd id hid).trans ((hspares id hid hne).trans ((hy id hid).trans
        ((hspares' id hid hne).trans (hv id hid))))
    · have hother : teardowns after id = 0 :=
        teardowns_eq_zero hafter fun heq => hne (Invocation.destroyMini.inj heq)
      simp only [teardowns_append, hnone, hother, teardowns_nil]
    · obtain ⟨report, disabled, -, hx⟩ := hhere _ hours hnew rfl
      obtain ⟨⟨standing, hz, hdestroyed⟩, honce⟩ := hhere' _ hours (hy cell hours _ hx) rfl
      refine ⟨fun h => absurd h hkept, fun _ => ⟨⟨_, hv cell hours _ hz, hdestroyed⟩, ?_⟩⟩
      have hcount : teardowns after cell = 1 := by
        rw [teardowns, honce rfl, List.count_singleton_self]
      simp only [teardowns_append, hnone, hcount, teardowns_nil]

structure Enlisted (ours : CellId → Prop) (idOf : ε → String) (r : Store ε × Counter)
    (made : List (Made ε)) (w : World K) (calls : Calls K) (v : World K) : Prop where
  /-- Cells that were there before are others, and nothing happens to them. -/
  apart : ∀ id face, ours id → w.face? id = some face →
    v.face? id = some face ∧ teardowns calls id = 0 ∧ ∀ m ∈ made, m.cell ≠ id
  fares : ∀ before m after, made = before ++ m :: after → ours m.cell →
    (∀ m' ∈ before, m'.cell ≠ m.cell) ∧
      m.Fares (Kept idOf (settleAll idOf r before).1 m) calls v

namespace Enlisted

variable {idOf : ε → String} {r r₀ : Store ε × Counter} {m : Made ε} {made : List (Made ε)}
  {u v x : World K} {before calls : Calls K}

theorem later (h : Enlisted ours idOf r made w calls v) (hvx : ∀ id, ours id → Spares id v x) :
    Enlisted ours idOf r made w calls x where
  apart id face hid hface :=
    ⟨hvx id hid _ (h.apart id face hid hface).1, (h.apart id face hid hface).2⟩
  fares before m after hmade hours := by
    obtain ⟨hothers, hfares⟩ := h.fares before m after hmade hours
    refine ⟨hothers, ?_⟩
    rw [← List.append_nil calls]
    exact hfares.later (hvx m.cell hours) rfl

theorem cons (hfresh : ∀ id face, ours id → w.face? id = some face → m.cell ≠ id)
    (hspares : ∀ id, ours id → m.cell ≠ id → Spares id w u ∧ teardowns before id = 0)
    (hfares : ours m.cell → m.Fares (Kept idOf r₀.1 m) before u)
    (h : Enlisted ours idOf (settled idOf r₀ m) made u calls v) :
    Enlisted ours idOf r₀ (m :: made) w (before ++ calls) v where
  apart id face hid hface := by
    have hne : m.cell ≠ id := hfresh id face hid hface
    obtain ⟨hu, hnone⟩ := hspares id hid hne
    obtain ⟨hv, hnone', hothers⟩ := h.apart id face hid (hu _ hface)
    exact ⟨hv, by rw [teardowns_append, hnone, hnone'], List.forall_mem_cons.2 ⟨hne, hothers⟩⟩
  fares earlier m' after hmade hours := by
    cases earlier with
    | nil =>
      obtain ⟨rfl, rfl⟩ := List.cons.inj hmade
      obtain ⟨face, hface⟩ := (hfares hours).exists_face
      obtain ⟨hv, hnone, -⟩ := h.apart _ face hours hface
      refine ⟨List.forall_mem_nil _, (hfares hours).later (fun face' hface' => ?_) hnone⟩
      rwa [hv, ← hface]
    | cons first earlier =>
      obtain ⟨rfl, rfl⟩ := List.cons.inj hmade
      obtain ⟨hothers, hfares'⟩ := h.fares earlier m' after rfl hours
      have hne : m.cell ≠ m'.cell := fun heq => by
        obtain ⟨face, hface⟩ := (hfares (heq ▸ hours)).exists_face
        exact (h.apart _ face (heq ▸ hours) hface).2.2 m' (by simp) heq.symm
      exact ⟨List.forall_mem_cons.2 ⟨hne, hothers⟩, hfares'.after (hspares _ hours hne).2⟩

end Enlisted

theorem meets_enlistAllTold (idOf : ε → String) (make : ε → K.Mini) (token : Token)
    (entities : List ε) :
    Meets (tending ours) ((enlistAllTold idOf make token entities s counter).interpret carryPool)
      (fun calls r v => r.2.map (·.entity) = entities ∧ r.1 = settleAll idOf (s, counter) r.2 ∧
        Enlisted ours idOf (s, counter) r.2 w calls v) w := by
  induction entities generalizing s counter w with
  | nil =>
    refine Meets.pure fun v hv => ⟨rfl, rfl, ?_, ?_⟩
    · exact fun id face hid hface => ⟨hv id hid _ hface, rfl, List.forall_mem_nil _⟩
    · exact fun before m after h => by simp at h
  | cons entity rest ih =>
    show Meets (tending ours) ((enlistTold idOf make token s counter entity >>= fun r =>
      enlistAllTold idOf make token rest r.1.1 r.1.2 >>= fun r' =>
        pure (r'.1, r.2 :: r'.2)).interpret carryPool) _ _
    rw [Program.bind_eq_bind, Program.interpret_bind]
    refine Meets.seq (meets_enlistTold idOf make token entity) fun before ⟨r, m⟩ u _ hm => ?_
    dsimp only at hm
    obtain ⟨hentity, rfl, hfresh, hspares, hfares⟩ := hm
    rw [Program.bind_eq_bind, Program.interpret_bind]
    refine Meets.seq ih fun calls ⟨r', made⟩ v _ ⟨hentities, hr', hmade⟩ => ?_
    refine Meets.pure fun x hx => ⟨by rw [List.map_cons, hentity, hentities], hr', ?_⟩
    rw [List.append_nil]
    exact (Enlisted.cons hfresh hspares hfares hmade).later hx

/-- A mini-service is there, and is destroyed. -/
def IsTornDown (w : World K) (cell : CellId) : Prop :=
  ∃ face, w.face? cell = some face ∧ face.isMini = true ∧ face.standing.destroyed = true

theorem IsTornDown.holdsMini {cell : CellId} (h : IsTornDown w cell) :
    w.holdsMini cell = true := by
  obtain ⟨face, hface, hmini, -⟩ := h
  exact (holdsMini_iff hface).2 hmini

theorem exists_face_of_holdsMini {cell : CellId} (h : w.holdsMini cell = true) :
    ∃ face, w.face? cell = some face ∧ face.isMini = true := by
  obtain ⟨c, hc, hmini⟩ := (Option.any_eq_true _ _).1 h
  exact ⟨c.face, face?_of_cell? hc, hmini⟩

theorem IsTornDown.later {cell : CellId} {v : World K} (h : IsTornDown w cell)
    (hwv : Spares cell w v) : IsTornDown v cell := by
  obtain ⟨face, hface, hrest⟩ := h
  exact ⟨face, hwv _ hface, hrest⟩

theorem meets_destroyCells (cells : List CellId) :
    Meets (tending ours) ((Store.destroyCells cells : PoolHook K.Mini Unit).interpret carryPool)
      (fun calls _ v => (∀ call ∈ calls, ∃ cell ∈ cells, call.1 = .destroyMini cell) ∧
        ∀ id, ours id → w.holdsMini id = true → v.holdsMini id = true ∧
          (IsTornDown w id ∨ id ∈ cells → IsTornDown v id)) w := by
  induction cells generalizing w with
  | nil =>
    refine Meets.pure fun v hv => ⟨List.forall_mem_nil _, fun id hid hmini => ?_⟩
    obtain ⟨face, hface, hisMini⟩ := exists_face_of_holdsMini hmini
    exact ⟨(holdsMini_iff (hv id hid _ hface)).2 hisMini,
      fun h => (h.resolve_right List.not_mem_nil).later (hv id hid)⟩
  | cons cell cells ih =>
    refine Meets.seq tends_destroy fun before _ u _ ⟨hbefore, hspares, hhere⟩ => ?_
    refine ih.mono fun after _ v ⟨hafter, hrest⟩ => ⟨?_, fun id hid hmini => ?_⟩
    · refine List.forall_mem_append.2 ⟨fun call hcall => ?_, fun call hcall => ?_⟩
      · exact ⟨cell, List.mem_cons_self, hbefore call hcall⟩
      · obtain ⟨cell', hcell', hwhat⟩ := hafter call hcall
        exact ⟨cell', List.mem_cons_of_mem cell hcell', hwhat⟩
    · obtain ⟨face, hface, hisMini⟩ := exists_face_of_holdsMini hmini
      by_cases hne : cell = id
      · subst hne
        obtain ⟨⟨standing, hu, hdestroyed⟩, -⟩ := hhere face hid hface hisMini
        have hdown : IsTornDown u cell := ⟨_, hu, hisMini, hdestroyed⟩
        obtain ⟨hv, hv'⟩ := hrest cell hid hdown.holdsMini
        exact ⟨hv, fun _ => hv' (.inl hdown)⟩
      · have hu : Spares id w u := hspares id hid hne
        obtain ⟨hv, hv'⟩ := hrest id hid ((holdsMini_iff (hu _ hface)).2 hisMini)
        refine ⟨hv, fun h => hv' (h.imp (fun h => h.later hu) fun h => ?_)⟩
        exact (List.mem_cons.1 h).resolve_left (Ne.symm hne)

end Meets

structure Tallied (idOf : ε → String) (entities : List ε) (r : Store ε × Counter)
    (made : List (Made ε)) : Prop where
  /-- For each entity one mini-service was made. -/
  made_each : made.map (·.entity) = entities
  pool : r.1.entries = (firsts idOf made).map (Made.entry idOf)
  expected : r.2.expected = entities.length
  sum : r.2.expected = r.2.built + r.2.omitted
  built : r.2.built = r.1.size
  available : entities = [] → r.2.status = .available
  unavailable : entities ≠ [] → r.1.entries = [] → r.2.status = .unavailable
  order : ∀ c : Counter, c.expected = r.2.expected → c.recorded.Perm r.2.recorded →
    c.status = r.2.status

def statusesOf (v : World K) (s : Store ε) : List (Option Status) :=
  s.entries.map fun e => (v.face? e.cell).map (·.standing.status)

/-- What became of the mini-services that were made. -/
structure Tended (idOf : ε → String) (r : Store ε × Counter) (made : List (Made ε))
    (calls : Calls K) (v : World K) : Prop where
  /-- Each is in a cell of its own. -/
  cells : (made.map (·.cell)).Nodup
  pooled : ∀ m ∈ firsts idOf made, m.IsPooled calls v
  gone : ∀ m ∈ made, m ∉ firsts idOf made → m.IsGone calls v
  count : ∀ status, r.2.count status = (statusesOf v r.1).count (some status)
  worst : r.1.entries ≠ [] → ∃ statuses, statusesOf v r.1 = statuses.map some ∧
    IsWorst statuses r.2.status
  /-- A manager whose hooks wish for the status of the counter ends its pass with none better than
  that of any mini-service. -/
  wish : ∀ (scope : Scope) ending elapsedMillis finishedAt, scope.wish = some r.2.status →
    ∀ status, some status ∈ statusesOf v r.1 →
      status.severity ≤ (scope.report ending elapsedMillis finishedAt).status.severity

section Populate

variable {idOf : ε → String} {entities : List ε} {r : Store ε × Counter} {made : List (Made ε)}
  {ours : CellId → Prop} {calls : Calls K} {u v w : World K}

theorem Tallies.tallied (h : Tallies idOf entities.length made r)
    (hmade : made.map (·.entity) = entities) : Tallied idOf entities r made := by
  have hbuilt : r.2.built = (firsts idOf made).length := by
    have hlength := congrArg List.length h.recorded
    rwa [List.length_map, List.length_map] at hlength
  have hlength : made.length = entities.length := by rw [← hmade, List.length_map]
  have homitted := h.omitted
  have hexpected := h.expected
  refine ⟨hmade, h.entries, hexpected, by omega, ?_, ?_, ?_, fun _ => Counter.status_eq_of_perm⟩
  · rw [hbuilt, Store.size, h.entries, List.length_map]
  · rintro rfl
    obtain rfl : made = [] := List.eq_nil_of_length_eq_zero hlength
    have hrecorded : r.2.recorded = [] := List.map_eq_nil_iff.1 h.recorded
    simp [Counter.status, hexpected, hrecorded]
  · intro hsome hempty
    have hfirsts : firsts idOf made = [] := List.map_eq_nil_iff.1 (h.entries ▸ hempty)
    have hpos : 0 < r.2.expected := by
      rw [hexpected]
      exact List.length_pos_iff.2 hsome
    simp [Counter.status, hpos, hbuilt, hfirsts]

theorem nodup_map_of_splits {f : Made ε → CellId}
    (h : ∀ before m after, made = before ++ m :: after → ∀ m' ∈ before, f m' ≠ f m) :
    (made.map f).Nodup := by
  induction made using List.reverseRecOn with
  | nil => exact List.nodup_nil
  | append_singleton made m ih =>
    rw [List.map_append, List.nodup_append]
    refine ⟨ih fun before m' after hmade => ?_, by simp, ?_⟩
    · exact h before m' (after ++ [m]) (by rw [hmade, List.append_assoc, List.cons_append])
    · rintro _ hmem _ hlast
      obtain ⟨m', hm', rfl⟩ := List.mem_map.1 hmem
      obtain rfl := List.mem_singleton.1 hlast
      exact h made m [] rfl m' hm'

theorem Tallies.statusesOf_eq {expected : Nat} (h : Tallies idOf expected made r)
    (hpooled : ∀ m ∈ firsts idOf made, m.IsPooled calls v) :
    statusesOf v r.1 = r.2.recorded.map some := by
  rw [h.recorded, statusesOf, h.entries, List.map_map]
  refine List.map_congr_left fun m hm => ?_
  obtain ⟨⟨face, hface, -, hstatus⟩, -⟩ := hpooled m hm
  rw [Function.comp, Made.entry, hface, hstatus]
  rfl

theorem Enlisted.tended {manager : String} {expected : Nat}
    (h : Enlisted ours idOf (⟨manager, []⟩, .expecting expected) made w calls v)
    (hr : r = settleAll idOf (⟨manager, []⟩, .expecting expected) made)
    (hours : ∀ m ∈ made, ours m.cell) : Tended idOf r made calls v := by
  have htallies : Tallies idOf expected made r := hr ▸ tallies_settleAll idOf manager expected made
  have hfares : ∀ before m after, made = before ++ m :: after →
      (∀ m' ∈ before, m'.cell ≠ m.cell) ∧ m.Fares (m.IsFirst idOf before) calls v := by
    intro before m after hmade
    obtain ⟨hothers, hfares⟩ := h.fares before m after hmade (hours m (hmade ▸ by simp))
    exact ⟨hothers, hfares.congr (tallies_settleAll idOf manager expected before).kept_iff⟩
  have hnodup : (made.map (·.cell)).Nodup :=
    nodup_map_of_splits fun before m after hmade => (hfares before m after hmade).1
  have hpooled : ∀ m ∈ firsts idOf made, m.IsPooled calls v := by
    intro m hm
    obtain ⟨before, after, rfl⟩ := List.append_of_mem ((firsts_sublist made).mem hm)
    exact (hfares before m after rfl).2.1 (isFirst_of_mem_firsts hnodup hm)
  have hstatuses : statusesOf v r.1 = r.2.recorded.map some := htallies.statusesOf_eq hpooled
  refine ⟨hnodup, hpooled, fun m hm hout => ?_, fun status => ?_, fun hsome => ?_, ?_⟩
  · obtain ⟨before, after, rfl⟩ := List.append_of_mem hm
    exact (hfares before m after rfl).2.2 fun hfirst => hout (mem_firsts_of_isFirst hfirst)
  · rw [hstatuses, List.count_map_of_injective _ _ fun _ _ => Option.some.inj]
    rfl
  · refine ⟨r.2.recorded, hstatuses, Counter.isWorst_status fun hnone => hsome ?_⟩
    have hfirsts : (firsts idOf made).map Made.status? = [] := by
      rw [← htallies.recorded, hnone, List.map_nil]
    rw [htallies.entries, List.map_eq_nil_iff.1 hfirsts, List.map_nil]
  · intro scope ending elapsedMillis finishedAt hwish status hstatus
    rw [hstatuses, List.mem_map] at hstatus
    obtain ⟨s, hs, heq⟩ := hstatus
    obtain rfl := Option.some.inj heq
    have hworst := Counter.isWorst_status (List.ne_nil_of_mem hs)
    refine Nat.le_trans (hworst.2 s hs) ?_
    rw [Scope.report, hwish]
    exact severity_le_statusWith ending.outcome r.2.status

theorem Tended.after {before : Calls K} (h : Tended idOf r made calls v)
    (hbefore : ∀ m ∈ made, teardowns before m.cell = 0) : Tended idOf r made (before ++ calls) v :=
  { h with
    pooled := fun m hm => (h.pooled m hm).after (hbefore m ((firsts_sublist made).mem hm))
    gone := fun m hm hout => (h.gone m hm hout).after (hbefore m hm) }

theorem meets_populateTold {s : Store ε} (hours : ∀ e ∈ s.entries, ours e.cell)
    (hpool : ∀ e ∈ s.entries, w.holdsMini e.cell = true) (make : ε → K.Mini) (token : Token) :
    Meets (tending ours) ((populateTold idOf make entities token s).interpret carryPool)
      (fun calls r v => Tallied idOf entities r.1 r.2 ∧
        (∀ e ∈ s.entries, IsTornDown v e.cell ∧ ∀ m ∈ r.2, m.cell ≠ e.cell) ∧
        ((∀ m ∈ r.2, ours m.cell) → Tended idOf r.1 r.2 calls v)) w := by
  rw [populateTold, Program.bind_eq_bind, Program.interpret_bind]
  refine Meets.seq (meets_destroyCells _) fun before _ u _ hdestroyed => ?_
  obtain ⟨hbefore, hdown⟩ := hdestroyed
  refine (meets_enlistAllTold idOf make token entities).mono fun calls r v hmade => ?_
  obtain ⟨r, made⟩ := r
  obtain ⟨hentities, hr, henlisted⟩ := hmade
  have hprevious : ∀ e ∈ s.entries, IsTornDown v e.cell ∧ ∀ m ∈ made, m.cell ≠ e.cell := by
    intro e he
    obtain ⟨face, hface, hrest⟩ :=
      (hdown e.cell (hours e he) (hpool e he)).2 (.inr (List.mem_map_of_mem he))
    obtain ⟨hv, -, hothers⟩ := henlisted.apart e.cell face (hours e he) hface
    exact ⟨⟨face, hv, hrest⟩, hothers⟩
  refine ⟨?_, hprevious, fun hmine => (henlisted.tended hr hmine).after fun m hm => ?_⟩
  · exact (hr ▸ tallies_settleAll idOf s.manager entities.length made).tallied hentities
  · refine teardowns_eq_zero_of_forall fun call hcall heq => ?_
    obtain ⟨cell, hcell, hwhat⟩ := hbefore call hcall
    obtain ⟨e, he, rfl⟩ := List.mem_map.1 hcell
    exact (hprevious e he).2 m hm (Invocation.destroyMini.inj (heq.symm.trans hwhat))

/-- However the hooks of mini-services behave, and as long as nobody else changes those that a
manager had and those that it makes: filling its pool tears down all that it had and makes one new
one for each entity. Of each id the first one comes into the pool whose pass neither aborts nor ends
unavailable, in the order of the entities; each other one is destroyed, by one run of its hook. The
counter tells how many were pooled and omitted and how many stand in each status, and gives the most
severe status of the pool. -/
theorem populate_fills_pool {others : World K → World K → Prop} {s : Store ε}
    (hothers : ∀ u v, others u v → ∀ id, ours id → Spares id u v)
    (hours : ∀ e ∈ s.entries, ours e.cell) (hpool : ∀ e ∈ s.entries, w.holdsMini e.cell = true)
    (idOf : ε → String) (make : ε → K.Mini) (entities : List ε) (token : Token) :
    Prod.fst <$> (populateTold idOf make entities token s) =
      s.populate idOf make entities token ∧
    Yields others ((populateTold idOf make entities token s).interpret carryPool) w
      (fun calls r v => Tallied idOf entities r.1 r.2 ∧
        (∀ e ∈ s.entries, IsTornDown v e.cell ∧ ∀ m ∈ r.2, m.cell ≠ e.cell) ∧
        ((∀ m ∈ r.2, ours m.cell) → Tended idOf r.1 r.2 calls v)) :=
  ⟨map_populateTold idOf make entities token s,
    (meets_populateTold hours hpool make token).yields hothers fun h => h⟩

end Populate

open Rehearsal (Clerk)

/-- A manager that had one mini-service, whose cell is the first one. -/
def crew : Store Rehearsal.Entity := ⟨"crew", [⟨"old", { id := "old" }, 0⟩]⟩

def hall : World Rehearsal.kit where
  cells := #[{ name := "old", inner := .mini ⟨{ id := "old" }⟩ }]

/-- The first entity of an id fails, the second one does not, and a third one comes too late. -/
def newcomers : List Rehearsal.Entity :=
  [{ id := "a", build := some ⟨"failure", none⟩ }, { id := "a", override := some .degraded },
    { id := "b" }, { id := "a" }]

theorem populate_fills_pool_crew : ∃ calls r v,
    alone ((populateTold Rehearsal.Entity.id Clerk.mk newcomers .admin crew).interpret carryPool)
      hall = some (calls, r, v) ∧
    r.1.1.cells = [("a", 2), ("b", 3)] ∧ r.1.2 = ⟨4, [.degraded, .available], 2⟩ ∧
    Tallied Rehearsal.Entity.id newcomers r.1 r.2 ∧ IsTornDown v 0 ∧
    Tended Rehearsal.Entity.id r.1 r.2 calls v := by
  have hrun : (alone ((populateTold Rehearsal.Entity.id Clerk.mk newcomers .admin crew).interpret
      carryPool) hall).map (fun run => (run.2.1.1.1.cells, run.2.1.1.2)) =
        some ([("a", 2), ("b", 3)], ⟨4, [.degraded, .available], 2⟩) := by decide +kernel
  obtain ⟨⟨calls, r, v⟩, hrun, heq⟩ := Option.map_eq_some_iff.1 hrun
  obtain ⟨hcells, hcounter⟩ := Prod.mk.inj heq
  have hpool : ∀ e ∈ crew.entries, hall.holdsMini e.cell = true := by decide
  have hothers : ∀ u v : World Rehearsal.kit, u = v → ∀ id, True → Spares id u v :=
    fun u v huv id _ => huv ▸ .refl id u
  obtain ⟨htallied, hprevious, htended⟩ := ((populate_fills_pool hothers (fun _ _ => trivial) hpool
    Rehearsal.Entity.id Clerk.mk newcomers .admin).2 calls _ v (runs_alone hrun)).2 r rfl
  exact ⟨calls, r, v, hrun, hcells, hcounter, htallied, (hprevious _ List.mem_cons_self).1,
    htended fun _ _ => trivial⟩

end Steward.Mini
