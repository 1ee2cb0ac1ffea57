import Steward.Proofs.Fleet.Addressing
import Steward.Proofs.Fleet.Newcomers
import Steward.Proofs.Fleet.Requests
import Steward.Proofs.Link.Walk
import Steward.Proofs.Waiting.Operations
/-!
What tasks may ask for: that a fleet is started or added to, that components are built and torn
down along their links, state changes, and requests to single cells. Between two errands a task has
no locks, so it may wait for any cell that is there; and whatever is found in the fleet is there.
-/
namespace Steward

open Steward.Action

variable {K : Kit} {B : Bounds K} {α ρ : Type} {e e' : Estate B}

/-- Whatever the circumstances, the component is made by a factory that is confined. -/
def Registry.Descriptor.IsConfined (B : Bounds K) (d : Registry.Descriptor (Factory K)) : Prop :=
  ∀ ctx factory isManager, (d.effective ctx).kind = .concrete factory isManager →
    Factory.IsConfined B factory

namespace Estate

theorem mem_below_of_member? {name : String} {m : Member}
    (h : e.world.roster.member? name = some m) : m.cell ∈ below e.owner e.size :=
  e.members m (Roster.mem_of_member? h).1

theorem mem_below_of_find {name : String} {cell : CellId}
    (h : e.world.roster.find name = .ok cell) : cell ∈ below e.owner e.size := by
  obtain ⟨m, hm, rfl⟩ := Roster.find_eq_ok_iff.1 h
  exact mem_below_of_member? hm

theorem owner_of_pooled {id mini : CellId} {c : Cell K} {entries : List (String × CellId)}
    {key : String} (hc : e.world.cell? id = some c) (hpooled : c.pooled = some entries)
    (hmini : entries.lookup key = some mini) : e.owner mini = some id := by
  obtain ⟨s, hs, hpooled⟩ : ∃ s, c.inner = .service s ∧ K.pooled s = some entries := by
    unfold Cell.pooled at hpooled
    split at hpooled
    · exact ⟨_, ‹_›, hpooled⟩
    · cases hpooled
  obtain ⟨-, hkeeps⟩ := e.fits id (.service s) (by rw [hc, Option.map_some, hs])
  have hmem : (key, mini) ∈ entries := by
    obtain ⟨l₁, l₂, rfl, -⟩ := List.lookup_eq_some_iff.1 hmini
    simp
  exact hkeeps.minis (B.pooled hpooled _ hmem)

end Estate

namespace Fleet

theorem tidy_onAbort (fault : Fault) : Tidy B (onAbort fault) [] e := by
  cases fault with
  | buildAborted name reason =>
    refine .get fun e₁ _ => ?_
    rw [world_wary]
    cases e₁.world.config.abortPolicy with
    | exit => exact follows_report fun _ _ => trivial
    | propagate => exact tidy_report _
  | _ => exact tidy_pure

theorem tidy_checkAbort (r : Except Fault α) : Tidy B (checkAbort r) [] e := by
  cases r with
  | ok a => exact tidy_pure
  | error fault => exact follows_seq (tidy_onAbort fault) fun _ _ _ _ => tidy_pure

theorem tidy_destroyMembers (names : List String) : Tidy B (destroyMembers names) [] e := by
  induction names generalizing e with
  | nil => exact tidy_pure
  | cons name names ih =>
    refine .get fun e₁ he₁ => ?_
    rw [world_wary]
    cases hm : e₁.world.roster.member? name with
    | none => exact ih
    | some m =>
      have hfree := Estate.isFree_nil (Estate.mem_below_of_member? hm).1
      exact follows_seq (Cell.tidy_destroy hfree) fun _ _ _ _ => ih

theorem tidy_shutdown : Tidy B shutdown [] e :=
  .get fun _ _ => follows_seq (tidy_destroyMembers _) fun _ _ _ _ =>
    follows_report fun _ _ => tidy_pure

/-- A component holds on to no more than what its factory has found, which is there for good. -/
theorem keeps_of_isConfined {factory : Factory K} {name : String} {product : Product K}
    (hfactory : Factory.IsConfined B factory)
    (hproduct : (factory ⟨name, e.world⟩).product = .ok product) (he : e.Later e') :
    B.Keeps (below e'.owner e'.size) ∅ product.service := by
  have hkeeps := hfactory ⟨name, e.world⟩ product hproduct
  refine ⟨fun x hx => ?_, hkeeps.minis⟩
  obtain ⟨other, hother⟩ := hkeeps.refs hx
  obtain ⟨hlt, hnone⟩ := Estate.mem_below_of_find hother
  exact ⟨Nat.lt_of_lt_of_le hlt he.size, (he.owner x hlt).trans hnone⟩

theorem follows_making {step : Registry.Step (Factory K)}
    (hstep : Factory.IsConfined B step.factory) :
    (wary B).Follows (make step)
      (Having [] fun r e' => ∀ cell, r = .ok cell → cell < e'.size) [] e := by
  refine .invoke fun e₁ _ => ⟨trivial, ?_⟩
  refine follows_adjust (fun w => World.keepsInners_notes _ w) fun e₂ he₂ => ?_
  rw [world_wary]
  cases hproduct : (step.factory ⟨step.name, e₁.world⟩).product with
  | error fault =>
    refine follows_pure fun _ _ cell h => ?_
    cases h
  | ok product =>
    refine .getModify fun e₃ he₃ => ?_
    have hkeeps := keeps_of_isConfined hstep hproduct (he₂.trans he₃)
    rw [world_wary]
    by_cases htaken : (e₃.world.roster.member? step.name).isSome = true
    · refine ⟨[], e₃, by simp [htaken], ⟨rfl, .refl _⟩, ?_⟩
      simp only [htaken, if_true]
      refine follows_pure fun _ _ cell h => ?_
      cases h
    · have hjoin := e₃.later_join step product hkeeps
      refine ⟨[], e₃.join step product hkeeps, by simp [htaken, Estate.join], ⟨rfl, hjoin⟩, ?_⟩
      simp only [htaken]
      refine follows_pure fun e₄ he₄ cell h => ?_
      obtain rfl : e₃.size = cell := Except.ok.inj h
      exact Nat.lt_of_lt_of_le (e₃.size_lt_join step product hkeeps) he₄.size

theorem tidy_boot {step : Registry.Step (Factory K)} (hstep : Factory.IsConfined B step.factory) :
    Tidy B (boot step) [] e := by
  refine follows_seq (follows_making hstep) fun r e₁ _ hr => ?_
  cases r with
  | error fault => exact tidy_pure
  | ok cell =>
    refine follows_seq (Cell.tidy_build .boot (Estate.isFree_nil (hr cell rfl))) fun r e₂ _ _ => ?_
    cases r with
    | error fault => exact tidy_pure
    | ok report =>
      exact follows_adjust (fun w => World.keepsInners_of_eq rfl fun _ h => h) fun _ _ => tidy_pure

theorem tidy_bootAll {steps : List (Registry.Step (Factory K))}
    (hsteps : ∀ s ∈ steps, Factory.IsConfined B s.factory) : Tidy B (bootAll steps) [] e := by
  induction steps generalizing e with
  | nil => exact tidy_pure
  | cons step steps ih =>
    obtain ⟨hstep, hrest⟩ := List.forall_mem_cons.1 hsteps
    refine follows_seq (tidy_boot hstep) fun r _ _ _ => ?_
    cases r with
    | error fault => exact tidy_pure
    | ok report => exact ih hrest

theorem isConfined_of_plan {registry : Registry K} {ctx : Context}
    {p : Registry.Plan (Factory K)} (hnames : registry.names.Nodup)
    (hconfined : ∀ d ∈ registry.descriptors, d.IsConfined B)
    (hp : (registry.plan ctx).2 = .ok p) : ∀ s ∈ p.steps, Factory.IsConfined B s.factory := by
  intro s hs
  obtain ⟨b, hb, n, hrep, -, rfl⟩ := (Registry.sound_plan hnames hp).step s hs
  obtain ⟨d, hd, rfl⟩ := List.mem_map.1 hb
  exact hconfined d hd ctx n.factory n.isManager hrep.kind

theorem tidy_start {registry : Registry K} {config : Config} (hnames : registry.names.Nodup)
    (hconfined : ∀ d ∈ registry.descriptors, d.IsConfined B) :
    Tidy B (start registry config) [] e := by
  rcases hplan : registry.plan config.context with ⟨notes, planned⟩
  simp only [start, hplan]
  refine follows_adjust (fun w => World.keepsInners_notes _ w) fun e₁ _ => ?_
  cases planned with
  | error fault => exact tidy_pure
  | ok p =>
    have hsteps := isConfined_of_plan hnames hconfined (p := p) (by rw [hplan])
    refine follows_adjust (fun w => World.keepsInners_reports _ w) fun e₂ _ => ?_
    refine follows_adjust (fun w => World.keepsInners_of_eq rfl (List.nil_subset _)) fun e₃ _ => ?_
    refine follows_report fun e₄ _ => .get fun e₅ _ => ?_
    refine follows_seq (tidy_bootAll hsteps) fun r e₆ _ _ => ?_
    cases r with
    | ok _ => exact follows_adjust (fun w => .report (.refl w) _) fun _ _ => tidy_pure
    | error fault =>
      refine follows_seq (tidy_onAbort fault) fun _ _ _ _ => follows_report fun e₇ _ => ?_
      have hshutdown : Tidy B (discard shutdown) [] e₇ :=
        follows_seq tidy_shutdown fun _ _ _ _ => tidy_pure
      exact follows_seq hshutdown fun _ _ _ _ => tidy_pure

theorem tidy_register {d : Registry.Descriptor (Factory K)} (hd : d.IsConfined B) :
    Tidy B (register d) [] e := by
  refine .get fun e₁ _ => ?_
  rcases hreceive : receive e₁.world d with ⟨notes, reception⟩
  simp only [world_wary, hreceive]
  refine follows_adjust (fun w => World.keepsInners_notes _ w) fun e₂ _ => ?_
  cases reception with
  | refused fault => exact tidy_pure
  | skipped reason =>
    refine follows_adjust (fun w => ?_) fun _ _ => tidy_pure
    exact World.keepsInners_of_eq rfl fun _ h => h
  | welcome step =>
    obtain ⟨⟨isManager, hkind⟩, -⟩ := declared_of_receive hreceive
    refine follows_report fun e₃ _ => ?_
    exact follows_seq (tidy_boot (hd _ _ _ hkind)) fun r _ _ _ => tidy_checkAbort r

theorem tidy_visit (op : Link.Operation) {v : Link.Visit CellId} (hv : v.found < e.size) :
    Tidy B (v.run op) [] e := by
  refine follows_report fun e₁ he₁ => ?_
  have hfree := (Estate.isFree_nil hv).later he₁
  cases op with
  | build => exact follows_seq (Cell.tidy_build v.token hfree) fun _ _ _ _ => tidy_pure
  | destroy => exact follows_seq (Cell.tidy_destroy hfree) fun _ _ _ _ => tidy_pure

theorem tidy_runVisits (op : Link.Operation) {visits : List (Link.Visit CellId)}
    (before : Link.Propagation) (hvisits : ∀ v ∈ visits, v.found < e.size) :
    Tidy B (Link.runVisits op visits before) [] e := by
  induction visits generalizing e before with
  | nil => exact tidy_pure
  | cons v visits ih =>
    obtain ⟨hv, hrest⟩ := List.forall_mem_cons.1 hvisits
    refine follows_seq (tidy_visit op hv) fun r e₁ he₁ _ => ?_
    cases r with
    | error fault => exact tidy_pure
    | ok reports => exact ih _ fun v hv => Nat.lt_of_lt_of_le (hrest v hv) he₁.size

/-- A pass is worked out in one moment, and its components are there when it comes to them. -/
theorem tidy_spreadFrom (op : Link.Operation) (name : String) (token : Token) :
    Tidy B (spreadFrom op name token) [] e := by
  refine .get fun e₁ _ => ?_
  dsimp only
  split
  · exact tidy_pure
  · refine follows_seq (tidy_runVisits op {} fun v hv => ?_) fun r _ _ _ => ?_
    · exact (Estate.mem_below_of_find (Link.allFound_route _ op _ token v hv)).1
    · split <;> exact tidy_pure

theorem follows_target (change : Change) :
    (wary B).Follows (target change)
      (Having [] fun r e' => ∀ cell, r = .ok cell → cell < e'.size) [] e := by
  have hfault {fault : Fault} {e : Estate B} :
      (wary B).Follows (pure (.error fault))
        (Having [] fun (r : Except Fault CellId) e' => ∀ cell, r = .ok cell → cell < e'.size)
        [] e := by
    refine follows_pure fun _ _ cell h => ?_
    cases h
  refine .get fun e₁ _ => ?_
  rw [world_wary]
  cases hfind : e₁.world.roster.find change.component with
  | error fault => exact hfault
  | ok cell =>
    have hlt := (Estate.mem_below_of_find hfind).1
    cases change.id with
    | none =>
      refine follows_pure fun e₂ he₂ other h => ?_
      obtain rfl := Except.ok.inj h
      exact Nat.lt_of_lt_of_le hlt he₂.size
    | some id =>
      refine .get fun e₂ he₂ => .ite (fun _ => hfault) fun _ => ?_
      have hlooked : (wary B).Follows
          (reading cell fun c => (c.bind Cell.pooled).bind (·.lookup id))
          (Having [] fun found e' => ∀ mini, found = some mini → mini < e'.size) [] e₂ := by
        refine follows_reading ((Estate.isFree_nil hlt).later he₂) fun e₃ e₄ _ he₄ mini h => ?_
        obtain ⟨entries, hentries, hmini⟩ := Option.bind_eq_some_iff.1 h
        obtain ⟨c, hc, hpooled⟩ := Option.bind_eq_some_iff.1 hentries
        have howner := Estate.owner_of_pooled hc hpooled hmini
        exact Nat.lt_of_lt_of_le (Estate.lt_size_of_owner howner) he₄.size
      refine follows_seq hlooked fun found e₃ _ hfound => ?_
      cases found with
      | none => exact hfault
      | some mini =>
        refine follows_pure fun e₄ he₄ other h => ?_
        obtain rfl := Except.ok.inj h
        exact Nat.lt_of_lt_of_le (hfound mini rfl) he₄.size

theorem tidy_apply (change : Change) : Tidy B (apply change) [] e := by
  refine follows_seq (follows_target change) fun r e₁ _ hr => ?_
  cases r with
  | error fault => exact tidy_pure
  | ok cell =>
    have hfree : e₁.IsFree [] cell := Estate.isFree_nil (hr cell rfl)
    have hbuild {e₂ : Estate B} (he₂ : e₁.Later e₂) :
        Tidy B (if change.toBuild then do
          return (← checkAbort (← Cell.build cell change.token)).map some
        else return .ok none) [] e₂ := by
      refine .ite (fun _ => ?_) fun _ => tidy_pure
      refine follows_seq (Cell.tidy_build _ (hfree.later he₂)) fun r _ _ _ => ?_
      exact follows_seq (tidy_checkAbort r) fun _ _ _ _ => tidy_pure
    refine follows_report fun e₂ he₂ => ?_
    refine follows_seq (Cell.tidy_setStatus _ (hfree.later he₂)) fun _ e₃ he₃ _ => ?_
    have he₃ := he₂.trans he₃
    refine .ite (fun _ => ?_) fun _ => hbuild he₃
    exact follows_seq (Cell.tidy_destroy (hfree.later he₃)) fun _ _ he₄ _ => hbuild (he₃.trans he₄)

theorem tidy_snapshot (name : String) : Tidy B (snapshot name) [] e := by
  refine .get fun e₁ _ => ?_
  rw [world_wary]
  cases hfind : e₁.world.roster.find name with
  | error fault => exact tidy_pure
  | ok cell =>
    have hfree := Estate.isFree_nil (Estate.mem_below_of_find hfind).1
    exact follows_seq (tidy_reading hfree) fun _ _ _ _ => tidy_pure

theorem tidy_snapshotsOf (names : List String) : Tidy B (snapshotsOf names) [] e := by
  induction names generalizing e with
  | nil => exact tidy_pure
  | cons name names ih =>
    refine follows_seq (tidy_snapshot name) fun r _ _ _ => ?_
    cases r with
    | error fault => exact ih
    | ok s => exact follows_seq ih fun _ _ _ _ => tidy_pure

theorem tidy_snapshots : Tidy B snapshots [] e := .get fun _ _ => tidy_snapshotsOf _

end Fleet

inductive Errand (K : Kit) (ρ : Type) where
  | start (registry : Fleet.Registry K) (config : Config)
  | request (r : Fleet.Request K)
  | snapshots
  /-- A request to a cell that is chosen among those that are there. -/
  | visit (choose : World K → CellId) (r : Cell.Request K ρ)
  /-- One round of the timer of a cell. -/
  | round (choose : World K → CellId)

namespace Errand

def Answer : Errand K ρ → Type
  | .start _ _ => Except Fault Unit
  | .request r => r.Answer
  | .snapshots => List Snapshot
  | .visit _ r => Option r.Answer
  | .round _ => Option Bool

/-- Does something at the cell that is chosen, if that is there. -/
def at? (choose : World K → CellId) (p : CellId → Action K α) : Action K (Option α) := do
  match ← get fun w => (w.cell? (choose w)).map fun _ => choose w with
  | some id => return some (← p id)
  | none => return none

def action : (errand : Errand K ρ) → Action K errand.Answer
  | .start registry config => Fleet.start registry config
  | .request r => r.action
  | .snapshots => Fleet.snapshots
  | .visit choose r => at? choose fun id => r.run id
  | .round choose => at? choose Rotation.round

/-- All components are made by factories that are confined, and the bodies of calls wait for nothing
but what their components hold on to. -/
def IsConfined (B : Bounds K) : Errand K ρ → Prop
  | .start registry _ => registry.names.Nodup ∧ ∀ d ∈ registry.descriptors, d.IsConfined B
  | .request (.register d) => d.IsConfined B
  | .visit _ r => r.IsModest B
  | _ => True

theorem tidy_at? {choose : World K → CellId} {p : CellId → Action K α}
    (hp : ∀ id e', id < e'.size → Tidy B (p id) [] e') : Tidy B (at? choose p) [] e := by
  refine .get fun e₁ _ => ?_
  rw [world_wary]
  cases hid : (e₁.world.cell? (choose e₁.world)).map fun _ => choose e₁.world with
  | none => exact tidy_pure
  | some id =>
    obtain ⟨c, hc, rfl⟩ := Option.map_eq_some_iff.1 hid
    have hlt : choose e₁.world < e₁.size := (Array.getElem?_eq_some_iff.1 hc).1
    exact follows_seq (hp _ e₁ hlt) fun _ _ _ _ => tidy_pure

theorem tidy_action {errand : Errand K ρ} (h : errand.IsConfined B) :
    Tidy B errand.action [] e := by
  cases errand with
  | start registry config => exact Fleet.tidy_start h.1 h.2
  | request r =>
    cases r with
    | register d => exact Fleet.tidy_register h
    | rebuild name token =>
      exact follows_seq (Fleet.tidy_spreadFrom _ _ _) fun r _ _ _ => Fleet.tidy_checkAbort r
    | destroy name => exact Fleet.tidy_spreadFrom _ _ _
    | apply change => exact Fleet.tidy_apply change
    | shutdown => exact Fleet.tidy_shutdown
  | snapshots => exact Fleet.tidy_snapshots
  | visit choose r => exact tidy_at? fun id _ hid => Cell.tidy_request h (Estate.isFree_nil hid)
  | round choose => exact tidy_at? fun id _ hid => Rotation.tidy_round (Estate.isFree_nil hid)

end Errand

/-- What a task does all in all: errands, each of them decided on when those before it are over. -/
abbrev Duty (K : Kit) (ρ α : Type) := Program (Errand.Answer (K := K) (ρ := ρ)) α

namespace Duty

def action (duty : Duty K ρ α) : Action K α := duty.interpret Errand.action

/-- Whatever errands a task may come to are confined. -/
def IsConfined (B : Bounds K) : Duty K ρ α → Prop
  | .done _ => True
  | .call errand next => errand.IsConfined B ∧ ∀ a, IsConfined B (next a)

theorem tidy_action {duty : Duty K ρ α} (h : duty.IsConfined B) : Tidy B duty.action [] e := by
  induction duty generalizing e with
  | done a => exact tidy_pure
  | call errand next ih =>
    exact follows_seq (Errand.tidy_action h.1) fun a _ _ _ => ih a (h.2 a)

end Duty

end Steward
