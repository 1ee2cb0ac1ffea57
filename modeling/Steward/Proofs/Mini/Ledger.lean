import Steward.Proofs.Cell.Building
import Steward.Proofs.Mini.Pool
import Steward.Rehearsal.Kit
/-!
What a manager does with its pool in the course of time, command after command, while others are at
work on the cells. The history of the commands and of their replies tells which mini-services are in
the pool, and in which order; a store and a pool in two parts reply alike.
-/
namespace Steward.Mini

open Steward.Action World

variable {K : Kit} {ε σ μ : Type}

inductive Command (ε : Type) where
  | add (cell : CellId) (entity : ε)
  | remove (id : String)
  | clear
  | destroyAll
  | rebuild (id : String) (token : Token)

inductive Reply where
  | added
  | refused (fault : Fault)
  | removed (cell : Option CellId)
  | cleared (cells : List CellId)
  | destroyed (count : Nat)
  | rebuilt (result : Except Fault Report)

structure Ways (μ ε σ : Type) where
  add : σ → Entry ε → Except Fault σ
  remove : σ → String → σ × Option CellId
  clear : σ → σ × List CellId
  destroyAll : σ → PoolHook μ (σ × Nat)
  rebuild : σ → String → Token → PoolHook μ (Except Fault Report)

def Store.ways : Ways μ ε (Store ε) where
  add := Store.add
  remove s id := (s.remove id, (s.find? id).map (·.cell))
  clear s := (s.clear, s.entries.map (·.cell))
  destroyAll s := (fun t => (t, s.size)) <$> s.destroyAll
  rebuild := Store.rebuild

def Pool.ways : Ways μ ε (Pool ε) where
  add := Pool.add
  remove := Pool.remove
  clear := Pool.clear
  destroyAll := Pool.destroyAll
  rebuild := Pool.rebuild

/-- Carries out a command. A mini-service is added under the name of its cell. -/
def serve (ways : Ways K.Mini ε σ) : Command ε → σ → Action K (σ × Reply)
  | .add cell entity, s => do
    let name ← get fun w => ((w.cell? cell).map (·.name)).getD ""
    match ways.add s ⟨name, entity, cell⟩ with
    | .ok s => return (s, .added)
    | .error fault => return (s, .refused fault)
  | .remove id, s => return ((ways.remove s id).1, .removed (ways.remove s id).2)
  | .clear, s => return ((ways.clear s).1, .cleared (ways.clear s).2)
  | .destroyAll, s => do
    let (s, count) ← (ways.destroyAll s).interpret Cell.carryPool
    return (s, .destroyed count)
  | .rebuild id token, s => do
    let result ← (ways.rebuild s id token).interpret Cell.carryPool
    return (s, .rebuilt result)

def Command.IsFor (w : World K) : Command ε → Prop
  | .add cell _ => ∃ c, w.cell? cell = some c
  | _ => True

theorem Command.IsFor.later {command : Command ε} {v w : World K} (h : command.IsFor v)
    (hvw : KeepsCells (fun _ => False) v w) : command.IsFor w := by
  cases command with
  | add cell entity =>
    obtain ⟨c, hc⟩ := h
    obtain ⟨d, hd, -⟩ := hvw _ c hc
    exact ⟨d, hd⟩
  | _ => trivial

abbrev History (ε : Type) := List (Command ε × Reply)

/-- Command after command is carried out, while others change the world. -/
inductive Served (others : World K → World K → Prop) (ways : Ways K.Mini ε σ) (s : σ)
    (w : World K) : History ε → σ → World K → Prop
  | start : Served others ways s w [] s w
  | serve {history : History ε} {t t' : σ} {u v : World K} {command : Command ε} {reply : Reply}
      {calls : Calls K} (before : Served others ways s w history t u) (hfor : command.IsFor u)
      (run : Runs others (serve ways command t) u calls (.done (t', reply)) v) :
      Served others ways s w (history ++ [(command, reply)]) t' v

theorem interpret_map {α β : Type} (f : α → β) (hook : PoolHook K.Mini α) :
    (f <$> hook).interpret Cell.carryPool = f <$> hook.interpret Cell.carryPool :=
  Program.interpret_bind _ hook _

theorem map_serve {p : Pool ε} (h : p.InStep) (command : Command ε) :
    (fun r => (r.1.store, r.2)) <$> (serve Pool.ways command p : Action K _) =
      serve Store.ways command p.store := by
  cases command with
  | add cell entity =>
    simp only [serve, map_bind]
    refine bind_congr fun name => ?_
    obtain ⟨fault, hp, hs⟩ | ⟨q, hp, -, hs⟩ := h.add ⟨name, entity, cell⟩
    · simp only [Pool.ways, Store.ways, hp, hs, map_pure]
    · simp only [Pool.ways, Store.ways, hp, hs, map_pure]
  | remove id =>
    obtain ⟨-, hstore, hcell⟩ := h.remove id
    simp only [serve, Pool.ways, Store.ways, map_pure, hstore, hcell]
  | clear =>
    obtain ⟨-, hstore, hcells⟩ := h.clear
    simp only [serve, Pool.ways, Store.ways, map_pure, hstore, hcells]
  | destroyAll =>
    simp only [serve, Pool.ways, Store.ways, ← h.destroyAll, interpret_map, map_bind, map_pure,
      bind_map_left]
  | rebuild id token => simp only [serve, Pool.ways, Store.ways, map_bind, map_pure, h.rebuild]

section Served

variable {others : World K → World K → Prop} {w v : World K} {history : History ε}

abbrev lasting : Terms K := keeping fun _ _ => True

theorem quiet_hook {α : Type} (hook : PoolHook K.Mini α) :
    Quiet lasting (hook.interpret Cell.carryPool) w :=
  Quiet.interpret hook fun call _ _ =>
    Cell.quiet_carryPool (hosts_keeping fun _ _ _ => trivial) call

theorem meets_serve_pool {p : Pool ε} (h : p.InStep) (command : Command ε) :
    Meets lasting (serve Pool.ways command p) (fun _ r _ => r.1.InStep) w := by
  cases command with
  | add cell entity =>
    refine Meets.get fun v _ => ?_
    obtain ⟨fault, hp, -⟩ | ⟨q, hp, hq, -⟩ :=
      h.add ⟨((v.cell? cell).map (·.name)).getD "", entity, cell⟩
    · simp only [Pool.ways, hp]
      exact Meets.pure fun _ _ => h
    · simp only [Pool.ways, hp]
      exact Meets.pure fun _ _ => hq
  | remove id => exact Meets.pure fun _ _ => (h.remove id).1
  | clear => exact Meets.pure fun _ _ => h.clear.1
  | destroyAll =>
    simp only [serve, Pool.ways, Pool.destroyAll, Program.bind_eq_bind, Program.interpret_bind]
    rw [Program.bind_assoc]
    exact Meets.seq (quiet_hook _) fun _ _ _ _ _ => Meets.pure fun _ _ => h.clear.1
  | rebuild id token => exact Meets.seq (quiet_hook _) fun _ _ _ _ _ => Meets.pure fun _ _ => h

theorem Served.exists_pool (hothers : ∀ u v, others u v → KeepsCells (fun _ => False) u v)
    {manager : String} {s : Store ε}
    (h : Served others Store.ways (.empty manager) w history s v) :
    ∃ p : Pool ε, p.InStep ∧ p.store = s ∧
      Served others Pool.ways (.empty manager) w history p v := by
  induction h with
  | start => exact ⟨.empty manager, Pool.inStep_empty manager, rfl, .start⟩
  | @serve history s s' u v command reply calls before hfor run ih =>
    obtain ⟨p, hp, rfl, hserved⟩ := ih
    rw [← map_serve hp command] at run
    obtain ⟨⟨q, reply'⟩, heq, hrun⟩ := run.of_map
    obtain ⟨rfl, rfl⟩ := Prod.mk.inj heq
    have hq := (hrun.weaken hothers).ends (T := lasting) (meets_serve_pool hp command)
    exact ⟨q, hq, rfl, hserved.serve hfor hrun⟩

theorem Served.store (hothers : ∀ u v, others u v → KeepsCells (fun _ => False) u v)
    {manager : String} {p : Pool ε}
    (h : Served others Pool.ways (.empty manager) w history p v) :
    p.InStep ∧ Served others Store.ways (.empty manager) w history p.store v := by
  induction h with
  | start => exact ⟨Pool.inStep_empty manager, .start⟩
  | @serve history p q u v command reply calls before hfor run ih =>
    obtain ⟨hp, hserved⟩ := ih
    refine ⟨(run.weaken hothers).ends (T := lasting) (meets_serve_pool hp command), ?_⟩
    have hrun : Runs others ((fun r => (r.1.store, r.2)) <$> Mini.serve Pool.ways command p) u
        calls (.done (q.store, reply)) v := run.bind fun r => .done (r.1.store, r.2)
    rw [map_serve hp command] at hrun
    exact hserved.serve hfor hrun

end Served

def Adds (history : History ε) (w : World K) (k : Nat) (e : Entry ε) : Prop :=
  history[k]? = some (.add e.cell e.entity, .added) ∧ (w.cell? e.cell).map (·.name) = some e.id

def IsLastAdd (history : History ε) (w : World K) (id : String) (k : Nat) : Prop :=
  (∃ e, e.id = id ∧ Adds history w k e) ∧ ∀ k' e, k < k' → e.id = id → ¬ Adds history w k' e

def Command.TakesOut (id : String) : Command ε → Prop
  | .remove other => other = id
  | .clear | .destroyAll => True
  | .add _ _ | .rebuild _ _ => False

def Remains (history : History ε) (w : World K) (k : Nat) (e : Entry ε) : Prop :=
  Adds history w k e ∧ ∀ k' x, k < k' → history[k']? = some x → ¬ x.1.TakesOut e.id

structure Follows (history : History ε) (s : Store ε) (w : World K) : Prop where
  nodup : s.ids.Nodup
  mem_iff : ∀ e, e ∈ s.entries ↔ ∃ k, Remains history w k e
  last : ∀ k e, Remains history w k e → IsLastAdd history w e.id k
  order : s.entries.Pairwise fun e e' =>
    ∀ k k', Remains history w k e → Remains history w k' e' → k < k'

section History

variable {history : History ε} {x : Command ε × Reply} {s : Store ε} {v w : World K} {k : Nat}
  {e : Entry ε}

theorem getElem?_append_singleton_iff {α : Type} {l : List α} {a b : α} :
    (l ++ [a])[k]? = some b ↔ l[k]? = some b ∨ k = l.length ∧ a = b := by
  rcases Nat.lt_trichotomy k l.length with hlt | rfl | hgt
  · rw [List.getElem?_append_left hlt]
    exact ⟨.inl, fun h => h.resolve_right fun h => by omega⟩
  · simp
  · rw [List.getElem?_eq_none (by simp; omega), List.getElem?_eq_none (by omega)]
    simp [Nat.ne_of_gt hgt]

theorem Adds.lt_length (h : Adds history w k e) : k < history.length :=
  (List.getElem?_eq_some_iff.1 h.1).1

theorem adds_append_iff : Adds (history ++ [x]) w k e ↔
    Adds history w k e ∨ k = history.length ∧ x = (.add e.cell e.entity, .added) ∧
      (w.cell? e.cell).map (·.name) = some e.id := by
  rw [Adds, Adds, getElem?_append_singleton_iff, or_and_right, and_assoc]

theorem remains_append_iff : Remains (history ++ [x]) w k e ↔
    (Remains history w k e ∧ ¬ x.1.TakesOut e.id) ∨
    k = history.length ∧ x = (.add e.cell e.entity, .added) ∧
      (w.cell? e.cell).map (·.name) = some e.id := by
  simp only [Remains, adds_append_iff, getElem?_append_singleton_iff]
  constructor
  · rintro ⟨hadds | hlast, hkept⟩
    · exact .inl ⟨⟨hadds, fun k' y hk hy => hkept k' y hk (.inl hy)⟩,
        hkept history.length x hadds.lt_length (.inr ⟨rfl, rfl⟩)⟩
    · exact .inr hlast
  · rintro (⟨⟨hadds, hkept⟩, hx⟩ | ⟨rfl, hlast⟩)
    · refine ⟨.inl hadds, fun k' y hk hy => ?_⟩
      obtain hy | ⟨-, rfl⟩ := hy
      · exact hkept k' y hk hy
      · exact hx
    · refine ⟨.inr ⟨rfl, hlast⟩, fun k' y hk hy => ?_⟩
      obtain hy | ⟨rfl, -⟩ := hy
      · exact absurd (List.getElem?_eq_some_iff.1 hy).1 (by omega)
      · exact absurd hk (Nat.lt_irrefl _)

theorem Follows.filter (h : Follows history s w) (keep : Entry ε → Bool) (hx : x.2 ≠ .added)
    (hkeep : ∀ e, keep e = true ↔ ¬ x.1.TakesOut e.id) :
    Follows (history ++ [x]) ⟨s.manager, s.entries.filter keep⟩ w := by
  have hadds : ∀ k e, Adds (history ++ [x]) w k e ↔ Adds history w k e := fun k e => by
    rw [adds_append_iff, or_iff_left]
    rintro ⟨-, rfl, -⟩
    exact hx rfl
  have hremains : ∀ k e, Remains (history ++ [x]) w k e ↔
      Remains history w k e ∧ keep e = true := fun k e => by
    rw [remains_append_iff, hkeep, or_iff_left]
    rintro ⟨-, rfl, -⟩
    exact hx rfl
  refine ⟨h.nodup.sublist (List.filter_sublist.map _), fun e => ?_, fun k e hk => ?_, ?_⟩
  · rw [List.mem_filter, h.mem_iff, ← exists_and_right]
    exact exists_congr fun k => (hremains k e).symm
  · simp only [IsLastAdd, hadds]
    exact h.last k e ((hremains k e).1 hk).1
  · refine (h.order.filter _).imp fun hlt k k' hk hk' => ?_
    exact hlt k k' ((hremains _ _).1 hk).1 ((hremains _ _).1 hk').1

theorem added_iff (hname : (w.cell? e.cell).map (·.name) = some e.id) {e' : Entry ε} :
    ((Command.add e.cell e.entity, Reply.added) = (.add e'.cell e'.entity, .added) ∧
      (w.cell? e'.cell).map (·.name) = some e'.id) ↔ e' = e := by
  constructor
  · rintro ⟨heq, hname'⟩
    obtain ⟨id, entity, cell⟩ := e
    obtain ⟨id', entity', cell'⟩ := e'
    obtain ⟨rfl, rfl⟩ : cell = cell' ∧ entity = entity' := by simpa using heq
    obtain rfl : id' = id := Option.some.inj (hname'.symm.trans hname)
    rfl
  · rintro rfl
    exact ⟨rfl, hname⟩

theorem Follows.add (h : Follows history s w) (he : e.id ∉ s.ids)
    (hname : (w.cell? e.cell).map (·.name) = some e.id) :
    Follows (history ++ [(.add e.cell e.entity, .added)]) ⟨s.manager, s.entries ++ [e]⟩ w := by
  have hadds : ∀ k e', Adds (history ++ [(.add e.cell e.entity, .added)]) w k e' ↔
      Adds history w k e' ∨ k = history.length ∧ e' = e := fun k e' => by
    rw [adds_append_iff, added_iff hname]
  have hremains : ∀ k e', Remains (history ++ [(.add e.cell e.entity, .added)]) w k e' ↔
      Remains history w k e' ∨ k = history.length ∧ e' = e := fun k e' => by
    rw [remains_append_iff, added_iff hname]
    exact or_congr_left ⟨fun h => h.1, fun h => ⟨h, id⟩⟩
  have hne : ∀ {k e'}, Remains history w k e' → e'.id ≠ e.id := fun hk heq =>
    he (heq ▸ List.mem_map_of_mem ((h.mem_iff _).2 ⟨_, hk⟩))
  have hold : ∀ {k e'}, e' ∈ s.entries →
      Remains (history ++ [(.add e.cell e.entity, .added)]) w k e' → Remains history w k e' := by
    intro k e' hmem hk
    refine ((hremains k e').1 hk).resolve_right ?_
    rintro ⟨-, rfl⟩
    exact he (List.mem_map_of_mem hmem)
  refine ⟨?_, fun e' => ?_, fun k e' hk => ?_, List.pairwise_append.2 ⟨?_, ?_, ?_⟩⟩
  · rw [Store.ids, List.map_append, List.nodup_append]
    refine ⟨h.nodup, List.nodup_singleton _, ?_⟩
    rintro _ hmem _ hlast rfl
    obtain rfl := List.mem_singleton.1 hlast
    exact he hmem
  · simp only [List.mem_append, List.mem_singleton, h.mem_iff, hremains, exists_or]
    exact or_congr_right (exists_eq_left (p := fun _ => e' = e)).symm
  · refine ⟨⟨e', rfl, hk.1⟩, fun k' e'' hlt hid hlater => ?_⟩
    obtain hprevious | ⟨rfl, rfl⟩ := (hremains _ _).1 hk
    · obtain hlater | ⟨-, rfl⟩ := (hadds _ _).1 hlater
      · exact (h.last k e' hprevious).2 k' e'' hlt hid hlater
      · exact hne hprevious hid.symm
    · obtain hlater | ⟨rfl, -⟩ := (hadds _ _).1 hlater
      · exact absurd hlater.lt_length (Nat.not_lt.2 (Nat.le_of_lt hlt))
      · exact absurd hlt (Nat.lt_irrefl _)
  · exact h.order.imp_of_mem fun ha hb hlt k k' hk hk' => hlt k k' (hold ha hk) (hold hb hk')
  · exact List.pairwise_singleton _ _
  · intro a ha b hb k k' hk hk'
    obtain rfl := List.mem_singleton.1 hb
    obtain hk' | ⟨rfl, -⟩ := (hremains k' b).1 hk'
    · exact absurd rfl (hne hk')
    · exact (hold ha hk).1.lt_length

theorem Follows.later (h : Follows history s v) (hfor : ∀ x ∈ history, x.1.IsFor v)
    (hvw : KeepsCells (fun _ => False) v w) : Follows history s w := by
  have hadds : Adds history w = Adds history v := by
    funext k e
    refine propext (and_congr_right fun hk => ?_)
    obtain ⟨c, hc⟩ := hfor _ (List.mem_of_getElem? hk)
    obtain ⟨d, hd, hcd⟩ := hvw _ c hc
    rw [hc, hd, Option.map_some, Option.map_some, hcd.name]
  have hremains : Remains history w = Remains history v := by
    funext k e
    rw [Remains, Remains, hadds]
  have hlast : IsLastAdd history w = IsLastAdd history v := by
    funext id k
    rw [IsLastAdd, IsLastAdd, hadds]
  exact ⟨h.nodup, hremains ▸ h.mem_iff, hremains ▸ hlast ▸ h.last, hremains ▸ h.order⟩

theorem follows_empty (manager : String) (w : World K) :
    Follows ([] : History ε) (.empty manager) w where
  nodup := List.nodup_nil
  mem_iff _ := ⟨nofun, fun ⟨_, hk⟩ => nomatch hk.1.1⟩
  last _ _ hk := nomatch hk.1.1
  order := .nil

end History

def Answers (s : Store ε) (w : World K) : Command ε → Reply → Store ε → Prop
  | .add cell entity, reply, t => ∃ id, (w.cell? cell).map (·.name) = some id ∧
    (id ∈ s.ids ∧ reply = .refused (.miniServiceAlreadyExists s.manager id) ∧ t = s ∨
      id ∉ s.ids ∧ reply = .added ∧ t = ⟨s.manager, s.entries ++ [⟨id, entity, cell⟩]⟩)
  | .remove id, reply, t => t = ⟨s.manager, s.entries.filter (·.id != id)⟩ ∧
    (∀ e ∈ s.entries, e.id = id → reply = .removed (some e.cell)) ∧
    (id ∉ s.ids → reply = .removed none ∧ t = s)
  | .clear, reply, t => t = ⟨s.manager, []⟩ ∧ reply = .cleared (s.entries.map (·.cell))
  | .destroyAll, reply, t => t = ⟨s.manager, []⟩ ∧ reply = .destroyed s.entries.length
  | .rebuild id _, reply, t => t = s ∧ ∃ result, reply = .rebuilt result ∧
    (id ∉ s.ids → result = .error (.miniServiceNotFound s.manager id))

section Serve

variable {history : History ε} {s t : Store ε} {v w : World K} {command : Command ε}
  {reply : Reply}

theorem Answers.follows (ha : Answers s w command reply t) (h : Follows history s w) :
    Follows (history ++ [(command, reply)]) t w := by
  have hsame : reply ≠ .added → (∀ id, ¬ command.TakesOut id) →
      Follows (history ++ [(command, reply)]) s w := fun hreply hout => by
    have hall := h.filter (x := (command, reply)) (fun _ => true) hreply
      fun e => iff_of_true rfl (hout e.id)
    rwa [List.filter_true] at hall
  have hnone : reply ≠ .added → (∀ id, command.TakesOut id) →
      Follows (history ++ [(command, reply)]) ⟨s.manager, []⟩ w := fun hreply hout => by
    have hall := h.filter (x := (command, reply)) (fun _ => false) hreply
      fun e => iff_of_false Bool.false_ne_true (not_not_intro (hout e.id))
    rwa [List.filter_false] at hall
  cases command with
  | add cell entity =>
    obtain ⟨id, hname, ⟨-, rfl, rfl⟩ | ⟨hid, rfl, rfl⟩⟩ := ha
    · exact hsame nofun fun _ => not_false
    · exact h.add (e := ⟨id, entity, cell⟩) hid hname
  | remove id =>
    obtain ⟨rfl, hthere, hgone⟩ := ha
    refine h.filter _ ?_ fun e => bne_iff_ne.trans (not_congr eq_comm)
    by_cases hid : id ∈ s.ids
    · obtain ⟨e, he, heq⟩ := List.mem_map.1 hid
      rw [hthere e he heq]
      exact nofun
    · rw [(hgone hid).1]
      exact nofun
  | clear =>
    obtain ⟨rfl, rfl⟩ := ha
    exact hnone nofun fun _ => trivial
  | destroyAll =>
    obtain ⟨rfl, rfl⟩ := ha
    exact hnone nofun fun _ => trivial
  | rebuild id token =>
    obtain ⟨rfl, result, rfl, -⟩ := ha
    exact hsame nofun fun _ => not_false

theorem serve_destroyAll (s : Store ε) : (serve Store.ways .destroyAll s : Action K _) =
    (Store.destroyCells (s.entries.map (·.cell))).interpret Cell.carryPool >>= fun _ =>
      pure (s.clear, .destroyed s.size) := by
  have hdestroy : (s.destroyAll : PoolHook K.Mini _) =
      (fun _ => s.clear) <$> Store.destroyCells (s.entries.map (·.cell)) := rfl
  simp only [serve, Store.ways, hdestroy, interpret_map, bind_map_left]

theorem meets_serve_store (hs : s.ids.Nodup) (hfor : command.IsFor w) :
    Meets lasting (serve Store.ways command s)
      (fun _ r v => Answers s v command r.2 r.1) w := by
  cases command with
  | add cell entity =>
    refine Meets.get fun v hv => ?_
    obtain ⟨c, hc⟩ := hfor
    obtain ⟨d, hd, -⟩ := hv _ c hc
    rw [hd, Option.map_some, Option.getD_some]
    have hname : ∀ u, KeepsCells (fun _ => False) v u →
        (u.cell? cell).map (·.name) = some d.name := fun u hu => by
      obtain ⟨d', hd', hdd⟩ := hu _ d hd
      rw [hd', Option.map_some, hdd.name]
    cases hcontains : s.contains d.name with
    | true =>
      simp only [Store.ways, Store.add, hcontains, if_true]
      exact Meets.pure fun u hu => ⟨d.name, hname u hu,
        .inl ⟨Store.contains_iff.1 hcontains, rfl, rfl⟩⟩
    | false =>
      simp only [Store.ways, Store.add, hcontains, Bool.false_eq_true, if_false]
      refine Meets.pure fun u hu => ⟨d.name, hname u hu, .inr ⟨fun hmem => ?_, rfl, rfl⟩⟩
      rw [Store.contains_iff.2 hmem] at hcontains
      cases hcontains
  | remove id =>
    refine Meets.pure fun u _ => ⟨rfl, fun e he hid => ?_, fun hid => ?_⟩
    · simp only [Store.ways, (Store.find?_eq_some_iff hs).2 ⟨he, hid⟩, Option.map_some]
    · have hkept : s.entries.filter (·.id != id) = s.entries :=
        List.filter_eq_self.2 fun e he => bne_iff_ne.2 fun heq =>
          hid (heq ▸ List.mem_map_of_mem he)
      simp only [Store.ways, Store.remove, Store.find?_eq_none_iff.2 hid, hkept, Option.map_none,
        and_self]
  | clear => exact Meets.pure fun u _ => ⟨rfl, rfl⟩
  | destroyAll =>
    rw [serve_destroyAll]
    exact Meets.seq (quiet_hook _) fun _ _ _ _ _ => Meets.pure fun _ _ => ⟨rfl, rfl⟩
  | rebuild id token =>
    simp only [serve, Store.ways, Store.rebuild]
    cases hget : s.get id with
    | ok cell =>
      refine Meets.seq (quiet_hook _) fun _ result _ _ _ => Meets.pure fun _ _ =>
        ⟨rfl, result, rfl, fun hid => ?_⟩
      rw [Store.get, Store.find?_eq_none_iff.2 hid] at hget
      cases hget
    | error fault =>
      refine Meets.pure fun _ _ => ⟨rfl, _, rfl, fun hid => ?_⟩
      rw [Store.get, Store.find?_eq_none_iff.2 hid] at hget
      exact congrArg _ (Except.error.inj hget).symm

theorem Served.follows {others : World K → World K → Prop}
    (hothers : ∀ u v, others u v → KeepsCells (fun _ => False) u v) {manager : String}
    (h : Served others Store.ways (.empty manager) w history s v) :
    Follows history s v ∧ ∀ x ∈ history, x.1.IsFor v := by
  induction h with
  | start => exact ⟨follows_empty manager w, List.forall_mem_nil _⟩
  | @serve history s t u v command reply calls before hfor run ih =>
    obtain ⟨hfollows, hcells⟩ := ih
    have run' := run.weaken hothers
    have hmeets := meets_serve_store (w := u) hfollows.nodup hfor
    have huv : KeepsCells (fun _ => False) u v := (run'.meets (T := lasting) hmeets).1
    have hanswers : Answers s v command reply t := run'.ends (T := lasting) hmeets
    refine ⟨hanswers.follows (hfollows.later hcells huv), List.forall_mem_append.2
      ⟨fun x hx => (hcells x hx).later huv, fun x hx => ?_⟩⟩
    obtain rfl := List.mem_singleton.1 hx
    exact hfor.later huv

end Serve

def Makes {α : Type} : PoolHook μ α → List (PoolHook.Call μ) → α → Prop
  | .done a, calls, b => calls = [] ∧ a = b
  | .call call next, calls, b => ∃ answer rest, calls = call :: rest ∧ Makes (next answer) rest b

theorem makes_map_iff {α β : Type} {f : α → β} {hook : PoolHook μ α}
    {calls : List (PoolHook.Call μ)} {b : β} :
    Makes (f <$> hook) calls b ↔ ∃ a, Makes hook calls a ∧ f a = b := by
  induction hook generalizing calls with
  | done a =>
    exact ⟨fun h => ⟨a, ⟨h.1, rfl⟩, h.2⟩, fun ⟨a', ⟨hcalls, ha⟩, hf⟩ => ⟨hcalls, ha ▸ hf⟩⟩
  | call call next ih =>
    constructor
    · rintro ⟨answer, rest, rfl, h⟩
      obtain ⟨a, ha, hf⟩ := (ih answer).1 h
      exact ⟨a, ⟨answer, rest, rfl, ha⟩, hf⟩
    · rintro ⟨a, ⟨answer, rest, rfl, ha⟩, hf⟩
      exact ⟨answer, rest, rfl, (ih answer).2 ⟨a, ha, hf⟩⟩

theorem makes_destroyCells_iff {cells : List CellId} {calls : List (PoolHook.Call μ)} {u : Unit} :
    Makes (Store.destroyCells cells) calls u ↔ calls = cells.map .destroy := by
  induction cells generalizing calls with
  | nil => exact ⟨fun h => h.1, fun h => ⟨h, rfl⟩⟩
  | cons cell cells ih =>
    constructor
    · rintro ⟨_, rest, rfl, h⟩
      exact congrArg _ (ih.1 h)
    · rintro rfl
      exact ⟨(), _, rfl, ih.2 rfl⟩

/-- Each mini-service of the pool is destroyed once, in their order, and then the pool is empty. -/
theorem makes_destroyAll_iff {s t : Store ε} {calls : List (PoolHook.Call μ)} :
    Makes s.destroyAll calls t ↔
      calls = s.entries.map (fun e => .destroy e.cell) ∧ t = ⟨s.manager, []⟩ := by
  have hdestroy : (s.destroyAll : PoolHook μ _) =
      (fun _ => s.clear) <$> Store.destroyCells (s.entries.map (·.cell)) := rfl
  simp only [hdestroy, makes_map_iff, makes_destroyCells_iff, List.map_map, exists_and_left]
  exact and_congr_right fun _ => ⟨fun ⟨_, h⟩ => h.symm, fun h => ⟨(), h.symm⟩⟩

/-- All that holds of a store in a world, given what was done with it. -/
structure Sound (others : World K → World K → Prop) (history : History ε) (s : Store ε)
    (w : World K) : Prop where
  follows : Follows history s w
  shows : s.Shows
  named : ∀ e ∈ s.entries, ∃ c, w.cell? e.cell = some c ∧ c.name = e.id
  cells : (s.entries.map (·.cell)).Nodup
  destroys : ∀ {μ : Type} calls t, Makes (s.destroyAll : PoolHook μ _) calls t ↔
    calls = s.entries.map (fun e => .destroy e.cell) ∧ t = ⟨s.manager, []⟩
  /-- Every command can be carried out next, and what comes of it. -/
  answers : ∀ command, command.IsFor w → Yields others (serve Store.ways command s) w
    fun _ r v => Answers s v command r.2 r.1

/-- A pool in two parts shows all that a store shows. -/
structure Agrees (p : Pool ε) (s : Store ε) : Prop where
  ids : p.order = s.ids
  entries : p.entries = s.entries
  size : p.size = s.size
  isEmpty : p.isEmpty = s.isEmpty
  countWhere : ∀ condition, p.countWhere condition = s.countWhere condition
  contains : ∀ id, p.contains id = s.contains id
  find? : ∀ id, p.find? id = s.find? id
  get : ∀ id, p.get id = s.get id
  entity? : ∀ id, p.entity? id = s.entity? id
  destroys : ∀ {μ : Type} calls q count, Makes (p.destroyAll : PoolHook μ _) calls (q, count) →
    calls = s.entries.map (fun e => .destroy e.cell) ∧ count = s.size ∧ q.store.entries = []

theorem Pool.InStep.agrees {p : Pool ε} (h : p.InStep) : Agrees p p.store where
  ids := h.ids_store.symm
  entries := rfl
  size := h.size_store.symm
  isEmpty := h.isEmpty_store.symm
  countWhere condition := (h.countWhere_store condition).symm
  contains id := (h.contains_store id).symm
  find? id := (h.find?_store id).symm
  get id := (h.get_store id).symm
  entity? id := (h.entity?_store id).symm
  destroys calls q count hcalls := by
    have hmap : Makes ((fun r => (r.1.store, r.2)) <$> (p.destroyAll : PoolHook _ _)) calls
        (q.store, count) := makes_map_iff.2 ⟨(q, count), hcalls, rfl⟩
    rw [h.destroyAll, makes_map_iff] at hmap
    obtain ⟨t, ht, heq⟩ := hmap
    obtain ⟨rfl, rfl⟩ := makes_destroyAll_iff.1 ht
    obtain ⟨hq, rfl⟩ := Prod.mk.inj heq
    exact ⟨rfl, rfl, congrArg Store.entries hq.symm⟩

theorem Follows.sound {others : World K → World K → Prop}
    (hothers : ∀ u v, others u v → KeepsCells (fun _ => False) u v) {history : History ε}
    {s : Store ε} {w : World K} (h : Follows history s w) : Sound others history s w := by
  have hname : ∀ e ∈ s.entries, (w.cell? e.cell).map (·.name) = some e.id := fun e he => by
    obtain ⟨k, hk⟩ := (h.mem_iff e).1 he
    exact hk.1.2
  refine ⟨h, Store.shows_of_nodup h.nodup, fun e he => Option.map_eq_some_iff.1 (hname e he), ?_,
    fun calls t => makes_destroyAll_iff, fun command hfor => ?_⟩
  · have hids : (s.entries.map (·.cell)).map (fun cell => (w.cell? cell).map (·.name)) =
        s.ids.map some := by
      rw [Store.ids, List.map_map, List.map_map]
      exact List.map_congr_left hname
    exact List.Nodup.of_map _ (hids ▸ h.nodup.map fun _ _ => Option.some.inj)
  · exact (meets_serve_store h.nodup hfor).yields hothers fun h => h

/-- Whatever commands are given, and as long as no cell takes another name: what is in the pool, and
in which order, is what its history tells, all that it shows agrees, and every command does what it
says. A pool in two parts that is given the same commands replies alike and shows the same. -/
theorem pool_follows_history {others : World K → World K → Prop}
    (hothers : ∀ u v, others u v → KeepsCells (fun _ => False) u v) {manager : String}
    {history : History ε} {w v : World K} :
    (∀ s : Store ε, Served others Store.ways (.empty manager) w history s v →
      Sound others history s v ∧
        ∃ p : Pool ε, Served others Pool.ways (.empty manager) w history p v ∧ p.store = s) ∧
    ∀ p : Pool ε, Served others Pool.ways (.empty manager) w history p v →
      Served others Store.ways (.empty manager) w history p.store v ∧ Agrees p p.store := by
  refine ⟨fun s hs => ⟨(hs.follows hothers).1.sound hothers, ?_⟩, fun p hp => ?_⟩
  · obtain ⟨p, -, hstore, hserved⟩ := hs.exists_pool hothers
    exact ⟨p, hserved, hstore⟩
  · obtain ⟨hstep, hserved⟩ := hp.store hothers
    exact ⟨hserved, hstep.agrees⟩

/-- Two mini-services of one name, and one of another. -/
def stage : World Rehearsal.kit where
  cells := #[{ name := "a", inner := .mini ⟨{ id := "a" }⟩ },
    { name := "b", inner := .mini ⟨{ id := "b" }⟩ },
    { name := "a", inner := .mini ⟨{ id := "a" }⟩ }]

/-- The second one of the name comes into the pool as soon as the first one has left it. -/
def changeover : History Rehearsal.Entity :=
  [(.add 0 { id := "a" }, .added), (.add 1 { id := "b" }, .added),
    (.add 2 { id := "a" }, .refused (.miniServiceAlreadyExists "crew" "a")),
    (.remove "a", .removed (some 0)), (.add 2 { id := "a" }, .added)]

def changed : Store Rehearsal.Entity :=
  ⟨"crew", [⟨"b", { id := "b" }, 1⟩, ⟨"a", { id := "a" }, 2⟩]⟩

theorem served_changeover :
    Served Eq Store.ways (.empty "crew") stage changeover changed stage := by
  have hfirst : Served Eq Store.ways (.empty "crew") stage (changeover.take 1)
      ⟨"crew", [⟨"a", { id := "a" }, 0⟩]⟩ stage :=
    Served.start.serve (show Command.IsFor stage (.add 0 _) from ⟨_, rfl⟩) (runs_alone rfl)
  have hboth : Served Eq Store.ways (.empty "crew") stage (changeover.take 2)
      ⟨"crew", [⟨"a", { id := "a" }, 0⟩, ⟨"b", { id := "b" }, 1⟩]⟩ stage :=
    hfirst.serve (show Command.IsFor stage (.add 1 _) from ⟨_, rfl⟩) (runs_alone rfl)
  have hrefused : Served Eq Store.ways (.empty "crew") stage (changeover.take 3)
      ⟨"crew", [⟨"a", { id := "a" }, 0⟩, ⟨"b", { id := "b" }, 1⟩]⟩ stage :=
    hboth.serve (show Command.IsFor stage (.add 2 _) from ⟨_, rfl⟩) (runs_alone rfl)
  have hremoved : Served Eq Store.ways (.empty "crew") stage (changeover.take 4)
      ⟨"crew", [⟨"b", { id := "b" }, 1⟩]⟩ stage :=
    hrefused.serve (show Command.IsFor stage (.remove _) from trivial) (runs_alone rfl)
  exact hremoved.serve (show Command.IsFor stage (.add 2 _) from ⟨_, rfl⟩) (runs_alone rfl)

theorem pool_follows_history_changeover :
    Served Eq Store.ways (.empty "crew") stage changeover changed stage ∧
      Sound Eq changeover changed stage ∧ ∃ p : Pool Rehearsal.Entity, Agrees p changed := by
  have hothers : ∀ u v : World Rehearsal.kit, u = v → KeepsCells (fun _ => False) u v :=
    fun u v huv => huv ▸ .refl _ u
  obtain ⟨hsound, p, hp, hstore⟩ := (pool_follows_history hothers).1 changed served_changeover
  exact ⟨served_changeover, hsound, p, hstore ▸ ((pool_follows_history hothers).2 p hp).2⟩

end Steward.Mini
