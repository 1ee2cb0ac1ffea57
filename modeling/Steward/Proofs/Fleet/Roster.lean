import Mathlib.Logic.Relation
import Steward.Proofs.Fleet.Requests
import Steward.Proofs.Fleet.Start
import Steward.Proofs.Link.Graph
/-!
Who belongs to a running fleet. After any requests the order of members is that of the list of
members, none of them is left out too, and each stands after whatever it depends on or is linked
to. Members and components that are left out stay what they are.
-/
namespace Steward

open Steward.Action

variable {K : Kit}

def Member.needs (m : Member) : List String := m.dependencies ++ m.links.map (·.target)

namespace Roster

structure Ordered (r : Roster) : Prop where
  names : r.members.map (·.name) = r.order
  nodup : r.order.Nodup
  unskipped : ∀ n ∈ r.order, r.skipped? n = none
  needsFirst : Registry.Order.NeedsFirst (·.name) Member.needs r.members

variable {r : Roster}

theorem Ordered.mem_order_iff (h : r.Ordered) (n : String) :
    n ∈ r.order ↔ (r.member? n).isSome = true := by
  rw [member?_isSome_iff, h.names]

theorem Ordered.needs_before (h : r.Ordered) :
    Prefixwise (fun before n => ∀ m, r.member? n = some m → ∀ d ∈ m.needs, d ∈ before) r.order := by
  intro before n after heq m hm d hd
  have hnodup : (r.members.map (·.name)).Nodup := h.names ▸ h.nodup
  rw [← h.names] at heq
  obtain ⟨before', rest, hmembers, rfl, hrest⟩ := List.map_eq_append_iff.1 heq
  obtain ⟨m', after', rfl, rfl, rfl⟩ := List.map_eq_cons_iff.1 hrest
  obtain ⟨hmem, hname⟩ := mem_of_member? hm
  obtain rfl : m = m' := List.inj_on_of_nodup_map hnodup hmem (by simp [hmembers]) hname
  exact h.needsFirst before' m after' hmembers d hd

theorem Ordered.link_before (h : r.Ordered) {a : String} {l : Link}
    (hl : l ∈ r.topology.links a) :
    ∃ before after, r.order = before ++ a :: after ∧ l.target ∈ before := by
  rcases hm : r.member? a with _ | m
  · simp [topology, hm] at hl
  · have hlink : l ∈ m.links := by simpa [topology, hm] using hl
    have hmem : a ∈ r.order := by
      rw [h.mem_order_iff, hm]
      rfl
    obtain ⟨before, after, hsplit⟩ := List.append_of_mem hmem
    refine ⟨before, after, hsplit, h.needs_before before a after hsplit m hm l.target ?_⟩
    exact List.mem_append_right _ (List.mem_map_of_mem hlink)

theorem Ordered.complete_topology (h : r.Ordered) : r.topology.Complete := by
  have hlinks : ∀ {a : String} {l : Link}, l ∈ r.topology.links a →
      a ∈ r.order ∧ l.target ∈ r.order := by
    intro a l hl
    obtain ⟨before, after, hsplit, htarget⟩ := h.link_before hl
    simp [hsplit, htarget]
  refine ⟨hlinks, fun {a f} hf => ?_⟩
  obtain ⟨candidate, -, hf⟩ := List.mem_filterMap.1 hf
  obtain ⟨m, hm, hf⟩ := Option.bind_eq_some_iff.1 hf
  obtain ⟨l, hl, hf⟩ := Option.bind_eq_some_iff.1 hf
  cases hf
  obtain rfl : l.target = a := by simpa using List.find?_some hl
  have hlink : l ∈ r.topology.links candidate := by
    simpa [topology, hm] using List.mem_of_find?_eq_some hl
  exact (hlinks hlink).symm

theorem skipped?_isNone_iff {n : String} :
    r.skipped? n = none ↔ n ∉ Registry.namesOf r.skipped := by
  simp only [skipped?, List.find?_eq_none, Registry.namesOf, List.mem_map, beq_iff_eq]
  constructor
  · rintro h ⟨s, hs, hn⟩
    exact h s hs hn
  · exact fun h s hs hn => h ⟨s, hs, hn⟩

theorem Ordered.join {m : Member} (h : r.Ordered) (hfree : m.name ∉ r.order)
    (hskipped : r.skipped? m.name = none) (hneeds : ∀ d ∈ m.needs, d ∈ r.order) :
    Ordered { r with members := r.members ++ [m], order := r.order ++ [m.name] } where
  names := by rw [List.map_append, h.names, List.map_singleton]
  nodup := by
    show (r.order ++ [m.name]).Nodup
    rw [← List.concat_eq_append]
    exact h.nodup.concat hfree
  unskipped n hn := by
    rcases List.mem_append.1 hn with hn | hn
    · exact h.unskipped n hn
    · rw [List.mem_singleton.1 hn]
      exact hskipped
  needsFirst := h.needsFirst.concat fun d hd => h.names ▸ hneeds d hd

theorem Ordered.skip {s : Registry.Skipped} (h : r.Ordered) (hs : s.name ∉ r.order) :
    Ordered { r with skipped := r.skipped ++ [s] } where
  names := h.names
  nodup := h.nodup
  unskipped n hn := by
    rw [skipped?_isNone_iff, Registry.namesOf, List.map_append, List.mem_append, not_or]
    refine ⟨skipped?_isNone_iff.1 (h.unskipped n hn), fun hmem => hs ?_⟩
    obtain rfl : n = s.name := by simpa using hmem
    exact hn
  needsFirst := h.needsFirst

end Roster

namespace Fleet

structure Advances (v w : World K) : Prop where
  cells : World.KeepsCells (fun _ => False) v w
  ordered : v.roster.Ordered → w.roster.Ordered
  housed : Housed v → Housed w
  members : v.roster.members <+: w.roster.members
  order : v.roster.order <+: w.roster.order
  skipped : v.roster.skipped <+: w.roster.skipped
  aliases : w.roster.aliases = v.roster.aliases

variable {u v w : World K}

theorem advances_of_keeps (h : World.Keeps (fun _ => False) v w) : Advances v w where
  cells := h.cells
  ordered hv := h.roster ▸ hv
  housed hv := hv.keeps h
  members := h.roster ▸ List.prefix_refl _
  order := h.roster ▸ List.prefix_refl _
  skipped := h.roster ▸ List.prefix_refl _
  aliases := h.roster ▸ rfl

theorem Advances.trans (huv : Advances u v) (hvw : Advances v w) : Advances u w where
  cells := huv.cells.trans hvw.cells
  ordered h := hvw.ordered (huv.ordered h)
  housed h := hvw.housed (huv.housed h)
  members := huv.members.trans hvw.members
  order := huv.order.trans hvw.order
  skipped := huv.skipped.trans hvw.skipped
  aliases := hvw.aliases.trans huv.aliases

def advancing : Terms K :=
  { steady with own := Advances, own_of_others := advances_of_keeps, own_trans := .trans }

def Advancing {α : Type} (p : Action K α) (w : World K) : Prop :=
  Meets advancing p (fun _ _ _ => True) w

theorem advancing_of_steady {α : Type} {p : Action K α} {post : Calls K → α → World K → Prop}
    (h : Meets steady p post w) :
    Meets advancing p (fun calls a v => World.Keeps (fun _ => False) w v ∧ post calls a v) w :=
  h.own.relax (fun _ _ h => h) (fun _ _ => advances_of_keeps) (fun _ _ h => h) fun h => h

theorem Steady.advancing {α : Type} {p : Action K α} (h : Steady p) (w : World K) :
    Meets advancing p (fun _ _ v => World.Keeps (fun _ => False) w v) w :=
  (advancing_of_steady (h w)).mono fun _ _ _ hv => hv.1

theorem members_of_lateDependencies {r : Roster} {name : String} {ds rest : List String}
    (h : lateDependencies (K := K) r name ds = .inr rest) :
    ∀ n ∈ rest, (r.member? n).isSome = true := by
  induction ds generalizing rest with
  | nil =>
    obtain rfl : [] = rest := by simpa [lateDependencies] using h
    simp
  | cons d ds ih =>
    rw [lateDependencies] at h
    split at h
    · cases h
    · cases h
    · rename_i m _ hm
      split at h
      · rename_i rest' hrest
        obtain rfl := Sum.inr.inj h
        refine List.forall_mem_cons.2 ⟨?_, ih hrest⟩
        rw [hm]
        rfl
      · rename_i hstopped
        exact absurd h (hstopped _)

theorem members_of_lateLinks {r : Roster} {name : String} {ls links : List Link}
    (h : lateLinks r name ls = .ok links) : ∀ l ∈ links, (r.member? l.target).isSome = true := by
  induction ls generalizing links with
  | nil =>
    obtain rfl : [] = links := by simpa [lateLinks] using h
    simp
  | cons l ls ih =>
    simp only [lateLinks] at h
    split at h
    · cases h
    · rename_i hmember
      rcases hrest : lateLinks r name ls with fault | rest
      · simp [hrest, Except.map] at h
      · rw [hrest] at h
        obtain rfl := Except.ok.inj h
        refine List.forall_mem_cons.2 ⟨?_, ih hrest⟩
        simpa [Option.isSome_iff_ne_none] using hmember

theorem lateDependencies_ne_welcome {r : Roster} {name : String} {ds : List String} {s : Step K} :
    lateDependencies r name ds ≠ .inl (.welcome s) := by
  induction ds with
  | nil => simp [lateDependencies]
  | cons d ds ih =>
    rw [lateDependencies]
    split
    · simp
    · simp
    · split
      · simp
      · exact ih

theorem free_of_receive {d : Registry.Descriptor (Factory K)} {notes : List String}
    {reception : Reception K} (h : receive w d = (notes, reception))
    (hreception : ∀ fault, reception ≠ .refused fault) :
    d.name ∉ w.roster.members.map (·.name) ∧ w.roster.skipped? d.name = none := by
  simp only [receive] at h
  split at h
  · exact absurd (Prod.mk.inj h).2.symm (hreception _)
  split at h
  · exact absurd (Prod.mk.inj h).2.symm (hreception _)
  rename_i hfree
  rw [Bool.or_eq_true, not_or, Bool.not_eq_true, Bool.not_eq_true, Option.isSome_eq_false_iff,
    Option.isSome_eq_false_iff, Option.isNone_iff_eq_none, Option.isNone_iff_eq_none] at hfree
  refine ⟨?_, hfree.2⟩
  rw [← Roster.member?_isSome_iff, hfree.1]
  simp

theorem needs_of_receive {d : Registry.Descriptor (Factory K)} {notes : List String} {s : Step K}
    (h : receive w d = (notes, .welcome s)) :
    s.name = d.name ∧ ∀ n ∈ s.needs, (w.roster.member? n).isSome = true := by
  simp only [receive] at h
  split at h
  · cases h
  split at h
  · cases h
  split at h
  · cases h
  split at h
  · rename_i reception hlate
    obtain rfl : reception = .welcome s := (Prod.mk.inj h).2
    exact absurd hlate lateDependencies_ne_welcome
  · rename_i deps hdeps
    split at h
    · cases h
    split at h
    · cases h
    · rename_i links hlinks
      cases h
      refine ⟨rfl, fun n hn => ?_⟩
      rcases List.mem_append.1 hn with hn | hn
      · exact members_of_lateDependencies hdeps n hn
      · obtain ⟨l, hl, rfl⟩ := List.mem_map.1 hn
        exact members_of_lateLinks hlinks l hl

theorem advances_join {s : Step K} {product : Product K}
    (hskipped : w.roster.skipped? s.name = none)
    (hneeds : ∀ n ∈ s.needs, (w.roster.member? n).isSome = true) :
    Advances w (if (w.roster.member? s.name).isSome then w else join s product w) := by
  split
  · exact advances_of_keeps (.refl _ w)
  · rename_i hfree
    refine ⟨(World.keeps_addCell w _).cells, fun h => ?_, fun h => h.join s product,
      List.prefix_append _ _, List.prefix_append _ _, List.prefix_refl _, rfl⟩
    refine h.join (m := ⟨s.name, w.cells.size, s.dependencies, s.links, s.isManager⟩) ?_ hskipped ?_
    · rwa [h.mem_order_iff]
    · exact fun n hn => (h.mem_order_iff n).2 (hneeds n hn)

theorem advances_passed (report : Report) (w : World K) :
    Advances w
      { w with roster := { w.roster with bootReports := w.roster.bootReports ++ [report] } } where
  cells := .refl _ w
  ordered h := ⟨h.names, h.nodup, h.unskipped, h.needsFirst⟩
  housed h := ⟨h.cells, h.houses⟩
  members := List.prefix_refl _
  order := List.prefix_refl _
  skipped := List.prefix_refl _
  aliases := rfl

/-- What succeeds has brought one more member into the fleet, under a certain name. -/
def Brings {α : Type} (name : String) (v : World K) (r : Except Fault α) (w : World K) : Prop :=
  ∀ a, r = .ok a → ∃ m, w.roster.members = v.roster.members ++ [m] ∧ m.name = name

theorem Brings.of_error {α : Type} {name : String} {fault : Fault} :
    Brings name v (.error fault : Except Fault α) w := fun _ h => by cases h

theorem Brings.of_roster {α : Type} {name : String} {r : Except Fault α}
    (h : Brings name u r v) (hw : w.roster.members = v.roster.members) : Brings name u r w :=
  fun a hr => hw ▸ h a hr

theorem brings_boot {s : Step K} (hskipped : w.roster.skipped? s.name = none)
    (hneeds : ∀ n ∈ s.needs, (w.roster.member? n).isSome = true) :
    Meets advancing (boot s) (fun _ r v => Brings s.name w r v) w := by
  have hmake : Meets advancing (make s) (fun _ r v => Brings s.name w r v) w := by
    refine Meets.invoke fun u hu => ⟨trivial, Meets.modify fun v hv => ?_⟩
    have hnotes : World.Keeps (fun _ => False) v
        ((s.factory ⟨s.name, u⟩).notes.foldl World.note v) := World.keeps_notes _ _ v
    refine ⟨advances_of_keeps hnotes, ?_⟩
    split
    · exact Meets.pure fun _ _ => .of_error
    · refine Meets.getModify fun x hx => ?_
      have hroster : x.roster = w.roster := (hu.trans (hv.trans (hnotes.trans hx))).roster
      refine ⟨advances_join (hroster ▸ hskipped) (hroster ▸ hneeds), ?_⟩
      dsimp only
      split
      · exact Meets.pure fun _ _ => .of_error
      · refine Meets.pure fun y hy cell _ => ?_
        rw [hy.roster, ← hroster]
        exact ⟨_, rfl, rfl⟩
  refine Meets.seq hmake fun _ r v _ hr => ?_
  cases r with
  | error fault => exact Meets.pure fun _ _ => .of_error
  | ok cell =>
    refine Meets.seq ((Steady.build cell .boot).advancing v) fun _ r x _ hx => ?_
    cases r with
    | error fault => exact Meets.pure fun _ _ => .of_error
    | ok report =>
      refine Meets.modify fun y hy => ⟨advances_passed report y, Meets.pure fun z hz _ _ => ?_⟩
      rw [hz.roster]
      show ∃ m, y.roster.members = _ ∧ _
      rw [hy.roster, hx.roster]
      exact hr cell rfl

theorem brings_register (d : Registry.Descriptor (Factory K)) (w : World K) :
    Meets advancing (register d) (fun _ r v => Brings d.name w r v) w := by
  refine Meets.get fun v hv => ?_
  rcases hreceive : receive v d with ⟨notes, reception⟩
  refine Meets.modify fun x hx => ?_
  have hnotes : World.Keeps (fun _ => False) x (notes.foldl World.note x) :=
    World.keeps_notes _ _ x
  refine ⟨advances_of_keeps hnotes, ?_⟩
  cases reception with
  | refused fault => exact Meets.pure fun _ _ => .of_error
  | skipped reason =>
    obtain ⟨hfree, -⟩ := free_of_receive hreceive (by simp)
    refine Meets.modify fun y hy => ⟨?_, Meets.pure fun _ _ => .of_error⟩
    have hroster : y.roster = v.roster := (hx.trans (hnotes.trans hy)).roster
    refine ⟨.refl _ y, fun h => h.skip ?_, fun h => ⟨h.cells, h.houses⟩, List.prefix_refl _,
      List.prefix_refl _, List.prefix_append _ _, rfl⟩
    rwa [← h.names, hroster]
  | welcome s =>
    obtain ⟨-, hskipped⟩ := free_of_receive hreceive (by simp)
    obtain ⟨hname, hneeds⟩ := needs_of_receive hreceive
    refine Meets.report fun y hy => ⟨advances_of_keeps (World.keeps_report y _), ?_⟩
    have hroster : (y.report (.registering d.name)).roster = v.roster :=
      (hx.trans (hnotes.trans (hy.trans (World.keeps_report y _)))).roster
    have hboot : Meets advancing (boot s)
        (fun _ r z => Brings s.name (y.report (.registering d.name)) r z)
        (y.report (.registering d.name)) :=
      brings_boot (hroster ▸ hname ▸ hskipped) (hroster ▸ hneeds)
    refine Meets.seq hboot fun _ r z _ hr => ?_
    refine (advancing_of_steady (meets_checkAbort r)).mono fun _ r' a ha => ?_
    obtain ⟨hkeeps, rfl⟩ := ha
    refine Brings.of_roster (fun report hreport => ?_) (congrArg Roster.members hkeeps.roster)
    obtain ⟨m, hm, hmname⟩ := hr report hreport
    rw [hroster, hv.roster] at hm
    exact ⟨m, hm, hmname.trans hname⟩

theorem advancing_request (r : Request K) (w : World K) : Advancing r.action w := by
  cases r with
  | register d => exact (brings_register d w).mono fun _ _ _ _ => trivial
  | _ => exact ((Steady.request _ (by simp)).advancing w).mono fun _ _ _ _ => trivial

theorem Boarded.ordered {p : Registry.Plan (Factory K)} {bs : List (Registry.Blueprint (Factory K))}
    {ctx : Context} (hp : p.Sound bs ctx) (h : Boarded p p.steps p.steps w) :
    w.roster.Ordered where
  names := by rw [h.names, h.order]
  nodup := by
    rw [h.order]
    exact (List.nodup_append.1 hp.nodup).1
  unskipped n hn := by
    rw [h.order] at hn
    rw [Roster.skipped?_isNone_iff, h.skipped]
    exact fun hmem => (List.nodup_append.1 hp.nodup).2.2 n hn n hmem rfl
  needsFirst := by
    have hkeys : w.roster.members.map (fun m => (m.name, m.needs)) =
        p.steps.map fun s => (s.name, s.needs) :=
      map_eq_map_of_forall₂ _ _ h.members fun s m hs => by
        rw [hs.name, Member.needs, hs.dependencies, hs.links]
        rfl
    have hsteps : Prefixwise (fun before key => ∀ d ∈ key.2, d ∈ before.map (·.1))
        (p.steps.map fun s => (s.name, s.needs)) :=
      hp.needsFirst.map _ fun before s hs d hd => by
        rw [List.map_map]
        exact hs d hd
    rw [← hkeys] at hsteps
    refine hsteps.of_map _ fun before m hm d hd => ?_
    have hmem := hm d hd
    rwa [List.map_map] at hmem

/-- A fleet right after a start that succeeded. -/
def Founded (registry : Registry K) (config : Config) (w : World K) : Prop :=
  ∃ v calls, Runs (World.Keeps fun _ => True) (start registry config) v calls (.done (.ok ())) w

/-- From one world to another by requests one after the other, each run to its end or only in part,
while others leave the fleet as it is. -/
def Attended : World K → World K → Prop :=
  Relation.ReflTransGen fun v w => ∃ (r : Request K) (calls : Calls K) (q : Action K r.Answer),
    Runs (World.Keeps fun _ => False) r.action v calls q w

theorem Founded.planned {registry : Registry K} {config : Config} (hr : registry.names.Nodup)
    (h : Founded registry config w) :
    ∃ p, (registry.plan config.context).2 = .ok p ∧ Boarded p p.steps p.steps w := by
  obtain ⟨v, calls, run⟩ := h
  rcases hplan : (registry.plan config.context).2 with fault | p
  · obtain ⟨hr, -⟩ := run.ends (meets_start_of_error (w := v) hplan)
    cases hr
  · have hstarted := run.ends (meets_start (w := v) hr hplan)
    cases hstarted with
    | all board trace => exact ⟨p, rfl, board⟩

theorem Founded.boarded {registry : Registry K} {config : Config} (hr : registry.names.Nodup)
    (h : Founded registry config w) :
    ∃ p, p.Sound (registry.blueprints config.context) config.context ∧
      Boarded p p.steps p.steps w := by
  obtain ⟨p, hplan, board⟩ := h.planned hr
  exact ⟨p, Registry.sound_plan hr hplan, board⟩

theorem Attended.advances (h : Attended v w) : Advances v w := by
  induction h with
  | refl => exact advances_of_keeps (.refl _ v)
  | tail _ hstep ih =>
    obtain ⟨r, calls, q, run⟩ := hstep
    exact ih.trans (run.meets (advancing_request r _)).1

/-- In a fleet that was started and attended to in any way, members stand in the order once each
and are not left out, every concrete component of the registry is a member or left out, and whatever
a member refers to is a member that stands before it. Further requests take nobody away. -/
theorem fleet_stays_ordered {registry : Registry K}
    {ds : List (Registry.Descriptor (Factory K))} {config : Config} {u v w : World K}
    (hregistry : Registry.empty.registerAll ds = .ok registry)
    (hfounded : Founded registry config u) (huv : Attended u v) (hvw : Attended v w) :
    v.roster.order.Nodup ∧
      (∀ n, n ∈ v.roster.order ↔ (v.roster.member? n).isSome = true) ∧
      (∀ n, (v.roster.member? n).isSome = true → v.roster.skipped? n = none) ∧
      (∀ b ∈ registry.blueprints config.context, b.isAbstract = false →
        (v.roster.member? b.name).isSome = true ∨ (v.roster.skipped? b.name).isSome = true) ∧
      Prefixwise (fun before n => ∀ m, v.roster.member? n = some m → ∀ d ∈ m.needs, d ∈ before)
        v.roster.order ∧
      v.roster.order <+: w.roster.order ∧ v.roster.skipped <+: w.roster.skipped := by
  have hr : registry.names.Nodup := Registry.nodup_names_registerAll hregistry List.nodup_nil
  obtain ⟨p, hp, board⟩ := hfounded.boarded hr
  have huv' := huv.advances
  have hordered : v.roster.Ordered := huv'.ordered (board.ordered hp)
  refine ⟨hordered.nodup, hordered.mem_order_iff, fun n hn => ?_, fun b hb hconcrete => ?_,
    hordered.needs_before, hvw.advances.order, hvw.advances.skipped⟩
  · exact hordered.unskipped n ((hordered.mem_order_iff n).2 hn)
  · rcases (hp.mem_iff b.name).2 ⟨b, hb, rfl, hconcrete⟩ with hmem | hmem
    · left
      rw [← hordered.mem_order_iff]
      refine huv'.order.subset ?_
      rwa [board.order]
    · right
      rw [Option.isSome_iff_ne_none, ne_eq, Roster.skipped?_isNone_iff, not_not]
      refine (huv'.skipped.map (·.name)).subset ?_
      rwa [board.skipped]

/-- Where a program leads that is left alone. -/
def after {α : Type} (p : Action K α) (w : World K) : World K :=
  ((alone p w).map fun run => run.2.2).getD w

theorem founded_after {registry : Registry K} {config : Config}
    (h : (alone (start registry config) w).map (fun run => run.2.1) = some (.ok ())) :
    Founded registry config (after (start registry config) w) := by
  obtain ⟨⟨calls, r, v⟩, hrun, rfl⟩ := Option.map_eq_some_iff.1 h
  rw [after, hrun]
  exact ⟨w, calls, runs_alone hrun⟩

theorem attended_after {r : Request K} (h : (alone r.action w).isSome = true) :
    Attended w (after r.action w) := by
  obtain ⟨⟨calls, a, v⟩, hrun⟩ := Option.isSome_iff_exists.1 h
  rw [after, hrun]
  exact .single ⟨r, calls, _, runs_alone hrun⟩

theorem fleet_stays_ordered_cacheAndStore :
    let u := after (start cacheAndStore {}) {}
    let v := after (Request.register (idle "api" ["cache"])).action u
    let w := after (Request.destroy "store").action v
    v.roster.order = ["store", "cache", "api"] ∧ v.roster.order.Nodup ∧
      v.roster.order <+: w.roster.order := by
  intro u v w
  have hu : Founded cacheAndStore {} u := founded_after rfl
  have huv : Attended u v := attended_after (by decide +kernel)
  have hvw : Attended v w := attended_after (by decide +kernel)
  have h := fleet_stays_ordered registerAll_cacheAndStore hu huv hvw
  exact ⟨by decide +kernel, h.1, h.2.2.2.2.2.1⟩

end Fleet

end Steward
