import Steward.Fleet.Conduct
import Steward.Proofs.Cell.Guarding
import Steward.Proofs.Fleet.Addressing
import Steward.Proofs.Health.Checks
import Steward.Proofs.Rotation.Timer
/-!
What the health of a running fleet tells. As long as nobody joins a fleet late, its members are those
it was started with, under names of their own; so a response has a check for each of them, one for
each component that was left out, and no other.
-/
namespace Steward

open Steward.Action

variable {K : Kit} {u v w : World K}

namespace Fleet

theorem Steady.round (cell : CellId) : Steady (Rotation.round (K := K) cell) :=
  fun _ => (Rotation.quiet_round (Rotation.winds_of_hosts hosts_steady)).mono fun _ _ _ _ => trivial

/-- What happens to a running fleet, short of a registration: a request, a status that is set or a
round of a rotation timer, carried out to its end or only in part, while others leave the fleet as
it is. -/
inductive Tends : World K → World K → Prop
  | request {v w : World K} {calls : Calls K} (r : Request K) {q : Action K r.Answer}
      (hr : ∀ d, r ≠ .register d) (run : Runs (World.Keeps fun _ => False) r.action v calls q w) :
      Tends v w
  | setStatus {v w : World K} {calls : Calls K} (cell : CellId) (status : Status)
      {q : Action K Unit}
      (run : Runs (World.Keeps fun _ => False) (Cell.setStatus cell status) v calls q w) : Tends v w
  | round {v w : World K} {calls : Calls K} (cell : CellId) {q : Action K Bool}
      (run : Runs (World.Keeps fun _ => False) (Rotation.round cell) v calls q w) : Tends v w

theorem Steady.keeps {α : Type} {p q : Action K α} {calls : Calls K} (h : Steady p)
    (run : Runs (World.Keeps fun _ => False) p v calls q w) :
    World.Keeps (fun _ => False) v w :=
  (run.meets (T := steady) (h v)).1

theorem Tends.keeps (h : Tends v w) : World.Keeps (fun _ => False) v w := by
  cases h with
  | request r hr run => exact (Steady.request r hr).keeps run
  | setStatus cell status run => exact (Steady.setStatus cell status).keeps run
  | round cell run => exact (Steady.round cell).keeps run

def Tended : World K → World K → Prop := Relation.ReflTransGen Tends

theorem Tended.keeps (h : Tended v w) : World.Keeps (fun _ => False) v w := by
  induction h with
  | refl => exact .refl _ v
  | tail _ hstep ih => exact ih.trans hstep.keeps

theorem tended_after {r : Request K} (hr : ∀ d, r ≠ .register d)
    (h : (alone r.action w).isSome = true) : Tended w (after r.action w) := by
  obtain ⟨⟨calls, a, v⟩, hrun⟩ := Option.isSome_iff_exists.1 h
  rw [after, hrun]
  exact .single (.request r hr (runs_alone hrun))

variable {others : World K → World K → Prop}

/-- A snapshot shows a member in its cell, as it stands in a world that others have brought about. -/
def Shows (others : World K → World K → Prop) (w : World K) (m : Member) (s : Snapshot) : Prop :=
  ∃ x c, Relation.ReflTransGen others w x ∧ x.cell? m.cell = some c ∧ c.name = m.name ∧
    s = c.snapshot

theorem Shows.later {m : Member} {s : Snapshot} (h : Shows others v m s)
    (hv : Relation.ReflTransGen others w v) : Shows others w m s := by
  obtain ⟨x, c, hx, hc⟩ := h
  exact ⟨x, c, hv.trans hx, hc⟩

theorem Shows.name {m : Member} {s : Snapshot} (h : Shows others w m s) : s.name = m.name := by
  obtain ⟨x, c, -, -, hname, rfl⟩ := h
  exact hname

def onlooking (others : World K → World K → Prop) : Terms K :=
  { Cell.idling others with may := fun _ _ => False }

theorem keeps_of_reflTransGen (h : ∀ v w, others v w → World.Keeps (fun _ => False) v w)
    (hvw : Relation.ReflTransGen others v w) : World.Keeps (fun _ => False) v w := by
  induction hvw with
  | refl => exact .refl _ v
  | tail _ hstep ih => exact ih.trans (h _ _ hstep)

section Looking

variable (hothers : ∀ v w, others v w → World.Keeps (fun _ => False) v w)
include hothers

theorem shows_look {m : Member} (hm : w.Houses m.cell m.name) :
    Meets (onlooking others) (Cell.look m.cell) (fun _ s _ => Shows others w m s) w := by
  refine Meets.acquire (Meets.get fun v hv => Meets.release (Meets.pure fun _ _ => ?_))
  obtain ⟨c, hc, hname, -⟩ := (keeps_of_reflTransGen hothers hv).cells.houses hm
  exact ⟨v, c, hv, hc, hname, by rw [hc]; rfl⟩

theorem shows_snapshotsOf {ms : List Member}
    (h : ∀ m ∈ ms, w.roster.find m.name = .ok m.cell ∧ w.Houses m.cell m.name) :
    Meets (onlooking others) (snapshotsOf (ms.map (·.name)))
      (fun _ ss _ => List.Forall₂ (Shows others w) ms ss) w := by
  induction ms generalizing w with
  | nil => exact Meets.pure fun _ _ => .nil
  | cons m ms ih =>
    obtain ⟨⟨hfind, hhouses⟩, hrest⟩ := List.forall_mem_cons.1 h
    have hsnapshot : Meets (onlooking others) (snapshot m.name)
        (fun _ r _ => ∃ s, r = .ok s ∧ Shows others w m s) w := by
      refine Meets.get fun v hv => ?_
      have hkeeps := keeps_of_reflTransGen hothers hv
      rw [hkeeps.roster, hfind]
      refine Meets.seq (shows_look hothers (hkeeps.cells.houses hhouses)) fun _ s _ _ hs => ?_
      exact Meets.pure fun _ _ => ⟨s, rfl, hs.later hv⟩
    refine Meets.seq hsnapshot fun _ r v hv ⟨s, hr, hs⟩ => ?_
    subst hr
    have hkeeps := keeps_of_reflTransGen hothers hv
    refine Meets.seq (ih fun m' hm' => ?_) fun _ ss _ _ hss => Meets.pure fun _ _ => ?_
    · rw [hkeeps.roster]
      exact ⟨(hrest m' hm').1, hkeeps.cells.houses (hrest m' hm').2⟩
    · exact .cons hs (hss.imp fun _ _ hshows => hshows.later hv)

end Looking

/-- A response to operators, of members that look so and of components that were left out. -/
structure Tells (ss : List Snapshot) (skipped : List Registry.Skipped) (r : Health.Response) :
    Prop where
  /-- There is a check for each member and each component left out, and no other. -/
  checks : r.checks.Perm (ss.map Health.Check.ofSnapshot ++ skipped.map Health.Check.ofSkipped)
  names : (r.checks.map (·.name)).Nodup
  statuses : ∀ c ∈ r.checks, (∃ s ∈ ss, c.name = s.name ∧ c.status = some s.status ∧
    c.level = .ofStatus s.status) ∨
      ∃ s ∈ skipped, c.name = s.name ∧ c.status = none ∧ c.level = .degraded
  down : r.level = .down ↔ ∃ s ∈ ss, s.status.acceptsCalls = false
  up : r.level = .up ↔ (∀ s ∈ ss, s.status = .available) ∧ skipped = []
  degraded : r.level = .degraded ↔ (∀ s ∈ ss, s.status.acceptsCalls = true) ∧
    ((∃ s ∈ ss, s.status ≠ .available) ∨ skipped ≠ [])
  /-- The same checks in another order make the same response. -/
  anyOrder : ∀ cs : List Health.Check, cs.Perm r.checks →
    (cs.foldl Health.Response.addCheck {}).level = r.level ∧
      (cs.foldl Health.Response.addCheck {}).checks = cs

variable {ss : List Snapshot} {skipped skipped' : List Registry.Skipped}

theorem names_checks :
    (checks ss skipped).map (·.name) = ss.map (·.name) ++ Registry.namesOf skipped := by
  simp only [checks, List.map_append, List.map_map, Registry.namesOf]
  rfl

theorem level_checks_eq_down_iff (ss : List Snapshot) (skipped : List Registry.Skipped) :
    ((checks ss skipped).foldl Health.Response.addCheck {}).level = .down ↔
      ∃ s ∈ ss, s.status.acceptsCalls = false := by
  simp [Health.Response.level_foldl_eq_down_iff, checks, Health.ofStatus_eq_down_iff]

theorem level_checks_eq_up_iff (ss : List Snapshot) (skipped : List Registry.Skipped) :
    ((checks ss skipped).foldl Health.Response.addCheck {}).level = .up ↔
      (∀ s ∈ ss, s.status = .available) ∧ skipped = [] := by
  simp [Health.Response.level_foldl_eq_up_iff, checks, Health.ofStatus_eq_up_iff,
    List.eq_nil_iff_forall_not_mem]

theorem tells_checks (hss : (ss.map (·.name) ++ Registry.namesOf skipped).Nodup)
    (hperm : skipped.Perm skipped') :
    Tells ss skipped' ((checks ss skipped).foldl .addCheck {}) := by
  have hnames : ((checks ss skipped).map (·.name)).Nodup := names_checks ▸ hss
  have hchecks : ((checks ss skipped).foldl Health.Response.addCheck {}).checks =
      checks ss skipped := Health.Response.checks_foldl hnames
  have hdown := level_checks_eq_down_iff ss skipped
  have hup := level_checks_eq_up_iff ss skipped
  have hnil : skipped' = [] ↔ skipped = [] := by
    constructor <;> rintro rfl
    · exact hperm.eq_nil
    · exact hperm.nil_eq.symm
  refine ⟨?_, by rwa [hchecks], fun c hc => ?_, hdown, by rw [hup, hnil], ?_, fun cs hcs => ?_⟩
  · rw [hchecks]
    exact (hperm.map _).append_left _
  · rw [hchecks, checks, List.mem_append, List.mem_map, List.mem_map] at hc
    obtain ⟨s, hs, rfl⟩ | ⟨s, hs, rfl⟩ := hc
    · exact .inl ⟨s, hs, rfl, rfl, rfl⟩
    · exact .inr ⟨s, hperm.subset hs, rfl, rfl, rfl⟩
  · rw [Health.eq_degraded_iff, ne_eq, ne_eq, hdown, hup, ne_eq, hnil, not_and_or]
    simp
  · rw [hchecks] at hcs
    refine ⟨Health.Response.level_foldl_perm hcs, Health.Response.checks_foldl ?_⟩
    exact (hcs.map _).nodup_iff.2 hnames

def reporting (others : World K → World K → Prop) : Terms K :=
  { onlooking others with
    own := fun _ _ => True, own_of_others := fun _ => trivial, own_trans := fun _ _ => trivial }

theorem skipped_perm_skippedByName (r : Roster) : r.skippedByName.Perm r.skipped :=
  List.mergeSort_perm _ _

theorem meets_health (hothers : ∀ v w, others v w → World.Keeps (fun _ => False) v w)
    (ho : w.roster.Ordered) (hskipped : (Registry.namesOf w.roster.skipped).Nodup)
    (h : ∀ m ∈ w.roster.members, w.roster.find m.name = .ok m.cell ∧ w.Houses m.cell m.name) :
    Meets (reporting others) health (fun _ r _ =>
      ∃ ss, List.Forall₂ (Shows others w) w.roster.members ss ∧
        Tells ss w.roster.skipped r) w := by
  have hsnapshots : Meets (onlooking others) snapshots
      (fun _ ss _ => List.Forall₂ (Shows others w) w.roster.members ss) w := by
    refine Meets.get fun v hv => ?_
    have hroster := (keeps_of_reflTransGen hothers hv).roster
    rw [hroster, ← ho.names]
    refine ((shows_snapshotsOf hothers h).later hv).mono fun _ _ _ hss => hss
  have hrelaxed : Meets (reporting others) snapshots (fun _ ss v =>
      Relation.ReflTransGen others w v ∧ List.Forall₂ (Shows others w) w.roster.members ss) w :=
    hsnapshots.own.relax (fun _ _ h => h) (fun _ _ _ => trivial) (fun _ _ h => h) fun h => h
  refine Meets.seq hrelaxed fun _ ss v _ ⟨hv, hss⟩ => Meets.get fun x hx => ?_
  have hroster : x.roster = w.roster := (keeps_of_reflTransGen hothers (hv.trans hx)).roster
  refine Meets.modify fun y _ => ⟨trivial, Meets.pure fun _ _ => ⟨ss, hss, ?_⟩⟩
  rw [hroster]
  refine tells_checks ?_ (skipped_perm_skippedByName w.roster)
  have hnames : ss.map (·.name) = w.roster.order := by
    rw [← ho.names]
    exact map_eq_map_of_forall₂ _ _ hss fun _ _ hshows => hshows.name
  have hperm := (skipped_perm_skippedByName w.roster).map (·.name)
  rw [hnames, List.nodup_append]
  refine ⟨ho.nodup, hperm.nodup_iff.2 hskipped, ?_⟩
  rintro n hn _ hn' rfl
  exact Roster.skipped?_isNone_iff.1 (ho.unskipped n hn) (hperm.subset hn')

/-- In a fleet that was started and that nobody joined since, whatever happened to it, the response
to a question for its health has one check for each member, with the status that this had when it
was looked at, one degraded check for each component that was left out, and no other. It is down just
if a member refuses calls, and up just if all members are available and none was left out; and no
order of its checks would make another response. -/
theorem health_tells_fleet {registry : Registry K} {ds : List (Registry.Descriptor (Factory K))}
    {config : Config} {u w : World K} {others : World K → World K → Prop}
    (hregistry : Registry.empty.registerAll ds = .ok registry)
    (hfounded : Founded registry config u) (huw : Tended u w)
    (hothers : ∀ v w, others v w → World.Keeps (fun _ => False) v w) :
    Yields others health w fun _ r _ =>
      ∃ ss, List.Forall₂ (Shows others w) w.roster.members ss ∧ Tells ss w.roster.skipped r := by
  have hr : registry.names.Nodup := Registry.nodup_names_registerAll hregistry List.nodup_nil
  obtain ⟨p, hplan, board⟩ := hfounded.planned hr
  have hp := Registry.sound_plan hr hplan
  have hkeeps := huw.keeps
  have hstems : Stems registry config w := (hfounded.stems hr).advances (advances_of_keeps hkeeps)
  have hskipped : (Registry.namesOf w.roster.skipped).Nodup := by
    rw [hkeeps.roster, board.skipped]
    exact (List.nodup_append.1 hp.nodup).2.1
  have hfinds : ∀ m ∈ w.roster.members,
      w.roster.find m.name = .ok m.cell ∧ w.Houses m.cell m.name := by
    intro m hm
    have hconcrete := hfounded.not_isAbstract hr (hkeeps.roster ▸ hm)
    exact ⟨((hstems.answersToName_iff hr ⟨p, hplan⟩ hm).2 hconcrete).finds,
      hstems.housed.houses m hm⟩
  exact (meets_health hothers hstems.ordered hskipped hfinds).yields
    (fun _ _ h => .single h) fun h => h

/-- A cache and a store, and a mirror that is left out. -/
def cacheStoreAndMirror : Registry Rehearsal.kit :=
  ⟨[idle "cache" ["store"], idle "store" [],
    { idle "mirror" ["store"] with condition := .fixed false }]⟩

theorem registerAll_cacheStoreAndMirror :
    Registry.empty.registerAll [idle "cache" ["store"], idle "store" [],
      { idle "mirror" ["store"] with condition := .fixed false }] = .ok cacheStoreAndMirror := rfl

/-- The store is torn down, and then nothing else happens while the fleet is asked for its health. -/
theorem health_tells_fleet_cacheStoreAndMirror :
    let u := after (start cacheStoreAndMirror {}) {}
    let w := after (Request.destroy "store").action u
    Founded cacheStoreAndMirror {} u ∧ Tended u w ∧
      w.roster.order = ["store", "cache"] ∧ Registry.namesOf w.roster.skipped = ["mirror"] ∧
      Yields (fun _ _ => False) health w fun _ r _ => r.level = .down ∧
        ∃ ss, List.Forall₂ (Shows (fun _ _ => False) w) w.roster.members ss ∧
          Tells ss w.roster.skipped r := by
  intro u w
  have hu : Founded cacheStoreAndMirror {} u := founded_after rfl
  have huw : Tended u w := tended_after (by simp) (by decide +kernel)
  refine ⟨hu, huw, by decide +kernel, by decide +kernel, ?_⟩
  have hyields : Yields (fun _ _ => False) health w fun _ r _ =>
      ∃ ss, List.Forall₂ (Shows (fun _ _ => False) w) w.roster.members ss ∧
        Tells ss w.roster.skipped r :=
    health_tells_fleet registerAll_cacheStoreAndMirror hu huw fun _ _ h => h.elim
  refine hyields.mono fun _ r _ ⟨ss, hss, htells⟩ => ⟨htells.down.2 ?_, ss, hss, htells⟩
  have hmembers : w.roster.members =
      [⟨"store", 0, [], [], false⟩, ⟨"cache", 1, ["store"], [], false⟩] := by decide +kernel
  have hstatus : (w.cell? 0).map (·.standing.status) = some .unavailable := by decide +kernel
  rw [hmembers] at hss
  obtain ⟨s, -, ⟨x, c, hx, hc, -, rfl⟩, -, rfl⟩ := List.forall₂_cons_left_iff.1 hss
  obtain rfl : w = x := by
    rcases Relation.ReflTransGen.cases_head hx with h | ⟨_, h, -⟩
    · exact h
    · exact h.elim
  rw [hc, Option.map_some, Option.some_inj] at hstatus
  exact ⟨c.snapshot, by simp, by rw [show c.snapshot.status = _ from hstatus]; rfl⟩

end Fleet

end Steward
