import Steward.Core.Machine
import Steward.Proofs.Fleet.Health
/-!
What a machine does with its tasks is a run of each among others. The turns of the other tasks, of
the timers, of the locks and of the clock are changes that others make, so whatever holds of a
program among others holds of it on a machine, as long as all that is on the machine keeps to the
same terms.
-/
namespace Steward

open Steward.Action

variable {K : Kit} {α β : Type}

structure World.Relocks (v w : World K) : Prop where
  besides : { w with cells := v.cells } = v
  cells : ∀ id, (w.cell? id).map (fun c => { c with lock := .free }) =
    (v.cell? id).map fun c => { c with lock := .free }
  exclusive : ∀ id c d, v.cell? id = some c → w.cell? id = some d → c.lock.Exclusive →
    d.lock.Exclusive

namespace World

variable {v w : World K}

theorem Relocks.refl (w : World K) : Relocks w w where
  besides := rfl
  cells _ := rfl
  exclusive _ _ _ hc hd h := Option.some.inj (hc.symm.trans hd) ▸ h

theorem relocks_modifyCell {id : CellId} {f : Cell K → Lock}
    (hf : ∀ c, w.cell? id = some c → c.lock.Exclusive → (f c).Exclusive) :
    Relocks w (w.modifyCell id fun c => { c with lock := f c }) where
  besides := rfl
  cells cell := by
    rw [cell?_modifyCell]
    split
    · rw [Option.map_map]
      rfl
    · rfl
  exclusive cell c d hc hd h := by
    rw [cell?_modifyCell, hc] at hd
    split at hd
    · rename_i hid
      subst hid
      cases hd
      exact hf c hc h
    · cases hd
      exact h

theorem Relocks.keeps {spared : CellId → Prop} (h : Relocks v w) : Keeps spared v w where
  roster := (congrArg World.roster h.besides :)
  config := (congrArg World.config h.besides :)
  cells id c hc := by
    have hcell := h.cells id
    rw [hc, Option.map_some] at hcell
    obtain ⟨d, hd, hdc⟩ := Option.map_eq_some_iff.1 hcell
    exact ⟨d, hd, .of_eq (congrArg Cell.name hdc :) (congrArg Cell.inner hdc :)
      (congrArg Cell.standing hdc :)⟩

end World

namespace Moment

theorem relocks_acquire (m : Moment K) (task : TaskId) (cell : CellId) (access : Access) :
    m.world.Relocks (m.acquire task cell access).1.world := by
  unfold acquire
  split
  · exact .refl _
  · exact World.relocks_modifyCell fun c _ h => Lock.exclusive_request h task access

theorem relocks_release (m : Moment K) (task : TaskId) (cell : CellId) :
    m.world.Relocks (m.release task cell).world := by
  unfold release
  split
  · exact .refl _
  · rename_i c hc
    refine World.relocks_modifyCell fun d hd h => ?_
    obtain rfl := Option.some.inj (hc.symm.trans hd)
    exact Lock.exclusive_release h task

end Moment

inductive Stage.Leaves : Stage K α → Action K α → Prop
  | ready (rest : Action K α) : Leaves (.ready rest) rest
  | waiting {cell : CellId} {access : Access} {next : Unit → Action K α} :
      Leaves (.waiting next) (.call (.acquire cell access) next)
  | resting {wakesAt number millis : Nat} {next : Unit → Action K α} :
      Leaves (.resting wakesAt number next) (.call (.rest millis) next)
  | idling {wakesAt number millis : Nat} {next : Bool → Action K α} :
      Leaves (.idling wakesAt number next) (.call (.restUnlessCancelled millis) next)
  | finished (a : α) : Leaves (.finished a) (.done a)
  | exited {code : UInt8} {next : Empty → Action K α} :
      Leaves (.exited code) (.call (.exit code) next)

/-- A task that was held up comes to another stage, and may go on from there. -/
def Stage.Frees (others : World K → World K → Prop) (f : Stage K α → Stage K α) : Prop :=
  ∀ s q, s.Leaves q → ∃ q', (f s).Leaves q' ∧ ∀ w, Runs others q w [] q' w

namespace Stage

variable {others : World K → World K → Prop}

theorem frees_of_ready {f : Stage K α → Stage K α}
    (h : ∀ s q, s.Leaves q → f s = s ∨ ∃ rest, f s = .ready rest ∧ ∀ w, Runs others q w [] rest w) :
    Frees others f := by
  intro s q hs
  rcases h s q hs with heq | ⟨rest, heq, run⟩
  · exact ⟨q, heq.symm ▸ hs, fun w => .here q w⟩
  · exact ⟨rest, heq.symm ▸ .ready rest, run⟩

theorem frees_proceed : Frees (α := α) others proceed := by
  refine frees_of_ready fun s q h => ?_
  cases h with
  | waiting => exact .inr ⟨_, rfl, fun w => .acquire (.here _ w)⟩
  | _ => exact .inl rfl

theorem frees_wake : Frees (α := α) others wake := by
  refine frees_of_ready fun s q h => ?_
  cases h with
  | resting => exact .inr ⟨_, rfl, fun w => .rest (.here _ w)⟩
  | idling => exact .inr ⟨_, rfl, fun w => .restUnlessCancelled false (.here _ w)⟩
  | _ => exact .inl rfl

theorem frees_cancel : Frees (α := α) others cancel := by
  refine frees_of_ready fun s q h => ?_
  cases h with
  | idling => exact .inr ⟨_, rfl, fun w => .restUnlessCancelled true (.here _ w)⟩
  | _ => exact .inl rfl

end Stage

structure Action.Terms.Shared (T : Terms K) : Prop where
  others_of_own : ∀ {v w}, T.own v w → T.others v w
  relocks : ∀ {v w}, World.Relocks v w → T.others v w
  clock : ∀ (w : World K) (now : Nat), T.others w { w with now }
  number : ∀ (w : World K) (nextTask : TaskId), T.others w { w with nextTask }
  round : ∀ cell w, Meets T (Rotation.round cell) (fun _ _ _ => True) w

variable {T : Terms K}

theorem runs_segment (hT : T.Shared) (task : TaskId) (p : Action K α) (m : Moment K) :
    ∃ calls q, Runs T.others p m.world calls q (segment task p m).1.world ∧
      (segment task p m).2.Leaves q := by
  induction p generalizing m with
  | done a => exact ⟨[], _, .here _ _, .finished a⟩
  | call effect next ih =>
    cases effect with
    | update f =>
      obtain ⟨calls, q, run, hq⟩ := ih m.world (m.update f)
      exact ⟨calls, q, .update run, hq⟩
    | invoke what =>
      obtain ⟨calls, q, run, hq⟩ := ih m.world m
      exact ⟨_, q, .invoke run, hq⟩
    | acquire cell access =>
      have hlock := hT.relocks (m.relocks_acquire task cell access)
      unfold segment
      rcases hm : m.acquire task cell access with ⟨m', _ | _⟩
      · rw [hm] at hlock
        exact ⟨[], _, .other hlock (.here _ _), .waiting⟩
      · rw [hm] at hlock
        obtain ⟨calls, q, run, hq⟩ := ih () m'
        exact ⟨calls, q, .acquire (.other hlock run), hq⟩
    | release cell =>
      obtain ⟨calls, q, run, hq⟩ := ih () (m.release task cell)
      exact ⟨calls, q, .release (.other (hT.relocks (m.relocks_release task cell)) run), hq⟩
    | rest millis =>
      unfold segment
      split
      · obtain ⟨calls, q, run, hq⟩ := ih () m
        exact ⟨calls, q, .rest run, hq⟩
      · exact ⟨[], _, .here _ _, .resting⟩
    | restUnlessCancelled millis =>
      unfold segment
      split
      · obtain ⟨calls, q, run, hq⟩ := ih true m
        exact ⟨calls, q, .restUnlessCancelled true run, hq⟩
      · split
        · obtain ⟨calls, q, run, hq⟩ := ih false m
          exact ⟨calls, q, .restUnlessCancelled false run, hq⟩
        · exact ⟨[], _, .here _ _, .idling⟩
    | exit code => exact ⟨[], _, .here _ _, .exited⟩

def Running.Abides (T : Terms K) (r : Running K) : Prop :=
  ∀ t ∈ r.timers, ∃ q, t.stage.Leaves q ∧ Meets T q (fun _ _ _ => True) r.world

structure Machine.Follows (T : Terms K) (v : World K) (ps : List (Action K α)) (m : Machine K α) :
    Prop where
  length : m.tasks.length = ps.length
  others : T.others v m.world
  task : ∀ (i : Nat) (p : Action K α) (t : Task K α), ps[i]? = some p → m.tasks[i]? = some t →
    ∃ calls q, Runs T.others p v calls q m.world ∧ t.stage.Leaves q
  timers : m.Abides T

namespace Machine

variable {v w : World K} {ps : List (Action K α)} {m : Machine K α}

theorem Follows.elapse (h : m.Follows T v ps) (hw : T.others m.world w) (alarms : Nat) :
    Follows T v ps { m with world := w, alarms } where
  length := h.length
  others := T.others_trans h.others hw
  task i p t hp ht := by
    obtain ⟨calls, q, run, hq⟩ := h.task i p t hp ht
    exact ⟨calls ++ [], q, run.trans (.other hw (.here q w)), hq⟩
  timers t ht := by
    obtain ⟨q, hq, hmeets⟩ := h.timers t ht
    exact ⟨q, hq, hmeets.later hw⟩

theorem Follows.free {f : Stage K α → Stage K α} (h : m.Follows T v ps)
    (hf : Stage.Frees T.others f) (p : Task K α → Prop) [DecidablePred p] :
    Follows T v ps
      { m with tasks := m.tasks.map fun t => if p t then { t with stage := f t.stage } else t } where
  length := (List.length_map _).trans h.length
  others := h.others
  task i action t hp ht := by
    obtain ⟨u, hu, rfl⟩ := Option.map_eq_some_iff.1 ((List.getElem?_map ..).symm.trans ht)
    obtain ⟨calls, q, run, hq⟩ := h.task i action u hp hu
    split
    · obtain ⟨q', hq', hon⟩ := hf _ q hq
      exact ⟨calls ++ [], q', run.trans (hon _), hq'⟩
    · exact ⟨calls, q, run, hq⟩
  timers := h.timers

theorem Follows.freeTimers {f : Stage K Bool → Stage K Bool} (h : m.Follows T v ps)
    (hf : Stage.Frees T.others f) (p : Timer K → Prop) [DecidablePred p] (queue : List TaskId) :
    Follows T v ps { m with
      timers := m.timers.map fun t => if p t then { t with stage := f t.stage } else t
      queue } where
  length := h.length
  others := h.others
  task := h.task
  timers t ht := by
    obtain ⟨u, hu, rfl⟩ := List.mem_map.1 ht
    obtain ⟨q, hq, hmeets⟩ := h.timers u hu
    split
    · obtain ⟨q', hq', hon⟩ := hf _ q hq
      exact ⟨q', hq', ((hon m.world).meets hmeets).2.2⟩
    · exact ⟨q, hq, hmeets⟩

theorem Follows.rouse {f : Stage K Bool → Stage K Bool} (h : m.Follows T v ps)
    (hf : Stage.Frees T.others f) (id : TaskId) : (m.rouse id f).Follows T v ps := by
  unfold Machine.rouse
  split
  · exact h
  · split
    · exact h.freeTimers hf (fun t => t.id = id) _
    · exact h

theorem Follows.signal (hT : T.Shared) (h : m.Follows T v ps) (s : Signal) :
    (m.signal s).Follows T v ps := by
  cases s with
  | granted id =>
    have htasks : (m.rouse id .proceed).tasks = m.tasks := by
      unfold Machine.rouse
      split
      · rfl
      · split <;> rfl
    have hfree := (h.rouse Stage.frees_proceed id).free Stage.frees_proceed fun t => t.id = id
    rwa [htasks] at hfree
  | cancelled id => exact h.rouse Stage.frees_cancel id
  | launched id cell =>
    refine ⟨h.length, h.others, h.task, fun t ht => ?_⟩
    rcases List.mem_append.1 ht with ht | ht
    · exact h.timers t ht
    · obtain rfl := List.mem_singleton.1 ht
      exact ⟨_, .ready _, hT.round cell _⟩

theorem Follows.absorb (hT : T.Shared) {moment : Moment K}
    (h : Follows T v ps { m with world := moment.world, alarms := moment.alarms }) :
    (m.absorb moment).Follows T v ps :=
  List.foldlRecOn _ _ h fun _ hm s _ => hm.signal hT s

variable (hps : ∀ p ∈ ps, Meets T p (fun _ _ _ => True) v)
include hps

theorem Follows.advanceTask (hT : T.Shared) (h : m.Follows T v ps) (index : Nat) :
    (m.advanceTask index).Follows T v ps := by
  unfold Machine.advanceTask
  split
  · rename_i id rest hexited ht
    have hlt : index < ps.length := h.length ▸ (List.getElem?_eq_some_iff.1 ht).1
    obtain ⟨calls, q, run, hq⟩ := h.task index _ _ (List.getElem?_eq_getElem hlt) ht
    cases hq
    obtain ⟨later, q', hsegment, hq'⟩ := runs_segment hT id rest m.moment
    have hmeets := (run.meets (hps _ (List.getElem_mem hlt))).2.2
    have hw : T.others m.world (segment id rest m.moment).1.world :=
      hT.others_of_own (hsegment.meets hmeets).1
    have helapse := h.elapse hw (segment id rest m.moment).1.alarms
    refine Follows.absorb hT ⟨(List.length_set ..).trans h.length, helapse.others,
      fun i p t hp hi => ?_, helapse.timers⟩
    rw [List.getElem?_set] at hi
    split at hi
    · rename_i hindex
      subst hindex
      rw [if_pos (h.length ▸ hlt)] at hi
      cases hi
      rw [List.getElem?_eq_getElem hlt] at hp
      cases hp
      exact ⟨calls ++ later, q', run.trans hsegment, hq'⟩
    · exact helapse.task i p t hp hi
  · exact h

theorem Follows.advanceTasks (hT : T.Shared) (h : m.Follows T v ps) :
    m.advanceTasks.Follows T v ps :=
  List.foldlRecOn _ _ ⟨h.length, h.others, h.task, h.timers⟩
    fun _ hm index _ => hm.advanceTask hps hT index

omit hps

theorem Follows.put (h : m.Follows T v ps) {timers : List (Timer K)}
    (htimers : ∀ t ∈ timers, ∃ q, t.stage.Leaves q ∧ Meets T q (fun _ _ _ => True) m.world)
    (queue : List TaskId) : Follows T v ps { m with timers, queue } :=
  ⟨h.length, h.others, h.task, htimers⟩

theorem Follows.advanceTimer (hT : T.Shared) (h : m.Follows T v ps) (id : TaskId)
    (queue : List TaskId) : (m.advanceTimer id queue).Follows T v ps := by
  unfold Machine.advanceTimer
  split
  · rename_i id' cell rest hfind
    obtain ⟨q, hq, hmeets⟩ := h.timers _ (List.mem_of_find?_eq_some hfind)
    cases hq
    obtain ⟨calls, q', hsegment, hq'⟩ := runs_segment hT id rest m.moment
    obtain ⟨hown, -, hmeets'⟩ := hsegment.meets hmeets
    have helapse := h.elapse (hT.others_of_own hown) (segment id rest m.moment).1.alarms
    have hput (stage : Stage K Bool) (q : Action K Bool) (hstage : stage.Leaves q)
        (hq : Meets T q (fun _ _ _ => True) (segment id rest m.moment).1.world) :
        ∀ t ∈ m.timers.map fun t => if t.id = id then { t with stage } else t,
          ∃ q, t.stage.Leaves q ∧
            Meets T q (fun _ _ _ => True) (segment id rest m.moment).1.world := by
      intro t ht
      obtain ⟨u, hu, rfl⟩ := List.mem_map.1 ht
      split
      · exact ⟨q, hstage, hq⟩
      · exact helapse.timers u hu
    dsimp only
    split
    · exact Follows.absorb hT (helapse.put (hput _ _ (.ready _) (hT.round cell _)) _)
    · exact Follows.absorb hT
        (helapse.put (fun t ht => helapse.timers t (List.mem_filter.1 ht).1) _)
    · exact Follows.absorb hT (helapse.put (hput _ _ hq' (hmeets'.mono fun _ _ _ _ => trivial)) _)
  · exact h.put h.timers queue

theorem Follows.jump (hT : T.Shared) (h : m.Follows T v ps) (now : Nat) :
    (m.jump now).Follows T v ps := by
  have helapse := h.elapse (hT.clock m.world now) m.alarms
  have htasks := helapse.free Stage.frees_wake fun t =>
    (t.stage.alarm?.map (·.1)) == some now
  have htimers := htasks.freeTimers Stage.frees_wake fun t =>
    (t.stage.alarm?.map (·.1)) == some now
  exact ⟨(htimers []).length, (htimers []).others, (htimers []).task, (htimers []).timers⟩

theorem Follows.run (hps : ∀ p ∈ ps, Meets T p (fun _ _ _ => True) v) (hT : T.Shared)
    (h : m.Follows T v ps) (turns : Nat) : (m.run turns).Follows T v ps := by
  induction turns generalizing m with
  | zero => exact h
  | succ turns ih =>
    unfold Machine.run
    split
    · exact h
    · split
      · exact ih (h.advanceTasks hps hT)
      · split
        · exact ih (h.advanceTimer hT _ _)
        · split
          · exact ih ⟨h.length, h.others, h.task, h.timers⟩
          · split
            · exact ih (h.jump hT _)
            · exact h

end Machine

namespace Running

variable {r r' : Running K} {ps : List (Action K α)}

theorem follows_start (hT : T.Shared) (hr : r.Abides T) :
    (r.start ps).Follows T r.world ps where
  length := List.length_mapIdx
  others := hT.number r.world _
  task i p t hp ht := by
    have hstart : (r.start ps).tasks[i]? =
        (ps[i]?).map fun p => ⟨r.world.nextTask + i, .ready p⟩ := List.getElem?_mapIdx
    rw [hstart, hp] at ht
    cases ht
    exact ⟨[], p, .other (hT.number r.world _) (.here p _), .ready p⟩
  timers t ht := by
    obtain ⟨q, hq, hmeets⟩ := hr t ht
    exact ⟨q, hq, hmeets.later (hT.number r.world _)⟩

/-- What a machine runs side by side are runs of each program among others, if all programs keep to
terms that are shared; and the machine is left so that more can be run. -/
theorem runs_of_runAll (hT : T.Shared) (hr : r.Abides T)
    (hps : ∀ p ∈ ps, Meets T p (fun _ _ _ => True) r.world) {finished : Finished α}
    (hrun : r.runAll ps = (r', finished)) :
    r'.Abides T ∧ T.others r.world r'.world ∧ ∀ results, finished = .all results →
      List.Forall₂ (fun p a => ∃ calls, Runs T.others p r.world calls (.done a) r'.world)
        ps results := by
  have h := (follows_start hT hr).run hps hT turnLimit
  obtain ⟨rfl, rfl⟩ := Prod.mk.inj hrun
  refine ⟨h.timers, h.others, fun results hresults => ?_⟩
  split at hresults
  · cases hresults
  · split at hresults
    · rename_i answers hanswers
      cases hresults
      have hall := forall₂_of_mapM_some hanswers
      refine List.forall₂_of_length_eq_of_get (h.length.symm.trans hall.length_eq) ?_
      intro i hi hi'
      have hi'' := h.length ▸ hi
      obtain ⟨calls, q, run, hq⟩ :=
        h.task i _ _ (List.getElem?_eq_getElem hi) (List.getElem?_eq_getElem hi'')
      have hresult := hall.get hi'' hi'
      simp only [List.get_eq_getElem] at hresult ⊢
      generalize ((r.start ps).run turnLimit).tasks[i].stage = stage at hq hresult
      cases hq with
      | finished a =>
        cases hresult
        exact ⟨calls, run⟩
      | _ => cases hresult
    · cases hresults

theorem abides_of_idle (h : r.timers = []) : r.Abides T := by
  simp [Abides, h]

end Running

namespace Fleet

variable {r r' : Running K}

theorem shared_steady : (steady (K := K)).Shared where
  others_of_own h := h
  relocks h := h.keeps
  clock _ _ := World.keeps_of_eq rfl rfl rfl
  number _ _ := World.keeps_of_eq rfl rfl rfl
  round cell w := Steady.round cell w

/-- What a program yields among others that leave the fleet as it is it yields on a machine, with
the timers at work; and they are left so that more can be run. -/
theorem Steady.yields_on_machine {others : World K → World K → Prop} {p : Action K α}
    {post : Calls K → α → World K → Prop} (hp : Steady p) (hr : r.Abides steady)
    (hothers : ∀ v w, World.Keeps (fun _ => False) v w → others v w)
    (hyields : Yields others p r.world post) {results : List α}
    (hrun : r.run p = (r', .all results)) :
    (∃ a calls, results = [a] ∧ post calls a r'.world) ∧ r'.Abides steady := by
  obtain ⟨hr', -, hall⟩ := Running.runs_of_runAll shared_steady hr
    (List.forall_mem_singleton.2 (hp r.world)) hrun
  refine ⟨?_, hr'⟩
  cases hall results rfl with
  | cons hfirst hrest =>
    cases hrest
    obtain ⟨calls, run⟩ := hfirst
    exact ⟨_, calls, rfl, (hyields calls _ _ (run.weaken hothers)).2 _ rfl⟩

end Fleet

end Steward
