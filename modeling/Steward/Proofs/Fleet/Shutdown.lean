import Steward.Proofs.Cell.Settling
import Steward.Proofs.Fleet.Roster
/-!
Shutting a fleet down. A shutdown goes through all members in reverse, so each is torn down ahead of
whatever it needs; how a hook ends is no matter, and members that were torn down before are passed
over. A second shutdown finds nothing left to do.
-/
namespace Steward

open Steward.Action World

theorem Roster.Ordered.sublist_reverse {r : Roster} (h : r.Ordered) {m : Member}
    (hm : m ∈ r.members) {n : String} (hn : n ∈ m.needs) :
    ∃ d ∈ r.members, d.name = n ∧ [m, d].Sublist r.members.reverse := by
  obtain ⟨before, after, hsplit⟩ := List.append_of_mem hm
  obtain ⟨d, hd, hname⟩ := List.mem_map.1 (h.needsFirst before m after hsplit n hn)
  refine ⟨d, by simp [hsplit, hd], hname, ?_⟩
  rw [hsplit, List.reverse_append, List.reverse_cons, List.append_assoc]
  refine (List.Sublist.cons_cons m ?_).trans (List.sublist_append_right _ _)
  exact List.singleton_sublist.2 (List.mem_reverse.2 hd)

namespace Fleet

variable {K : Kit} {u v w : World K}

theorem meets_destroyMembers_settling {ms : List Member}
    (hms : ∀ m ∈ ms, w.roster.member? m.name = some m ∧ w.Houses m.cell m.name)
    (hcells : (ms.map (·.cell)).Nodup) :
    Meets (Cell.settling fun _ => False) (destroyMembers (ms.map (·.name)))
      (fun calls _ v => Cell.TearsDown (ms.map (·.cell)) w calls v) w := by
  induction ms generalizing w with
  | nil => exact Meets.pure fun _ _ => .nil _ _
  | cons m ms ih =>
    obtain ⟨⟨hmember, hhouses⟩, hrest⟩ := List.forall_mem_cons.1 hms
    obtain ⟨hcell, hcells⟩ := List.nodup_cons.1 hcells
    refine Meets.get fun v (hv : Settles (fun _ => True) w v) => ?_
    rw [hv.roster, hmember]
    have hdestroy := Cell.settling_mono (Cell.meets_destroy_settling (hv.cells.houses hhouses))
      fun _ (h : False) => h.elim
    refine Meets.seq hdestroy fun before _ x _ ⟨hvx, hdown, hbefore⟩ => ?_
    have hwx : Settles (fun id => id ≠ m.cell) w x := (hv.mono fun _ _ => trivial).trans hvx
    have hstill : ∀ n ∈ ms, x.roster.member? n.name = some n ∧ x.Houses n.cell n.name :=
      fun n hn => ⟨hwx.roster ▸ (hrest n hn).1, hwx.cells.houses (hrest n hn).2⟩
    refine (ih hstill hcells).own.mono fun later _ y ⟨hxy, hlater⟩ => ?_
    refine .cons hcell (fun i hi => ?_) hwx hdown ?_ hxy hlater
    · obtain ⟨n, hn, rfl⟩ := List.mem_map.1 hi
      exact ⟨n.name, (hrest n hn).2⟩
    · rw [hbefore, hv.isTornDown_eq trivial hhouses]

theorem meets_shutdown_settling (hordered : w.roster.Ordered) (hhoused : Housed w) :
    Meets (Cell.settling fun _ => False) shutdown (fun calls names v =>
      names = w.roster.order.reverse ∧ (∀ m ∈ w.roster.members, v.isTornDown m.cell = true) ∧
        ofMembers calls =
          (w.roster.members.reverse.filter fun m => !w.isTornDown m.cell).map
            fun m => .destroy m.cell) w := by
  refine Meets.get fun v (hv : Settles (fun _ => True) w v) => ?_
  have hnames : v.roster.order.reverse = w.roster.members.reverse.map (·.name) := by
    rw [hv.roster, ← hordered.names, List.map_reverse]
  have hmembers : ∀ m ∈ w.roster.members.reverse,
      v.roster.member? m.name = some m ∧ v.Houses m.cell m.name := by
    intro m hm
    have hm' := List.mem_reverse.1 hm
    refine ⟨?_, hv.cells.houses (hhoused.houses m hm')⟩
    rw [hv.roster]
    exact Roster.member?_of_mem (hordered.names ▸ hordered.nodup) hm'
  have hcells : (w.roster.members.reverse.map (·.cell)).Nodup := by
    rw [List.map_reverse, List.nodup_reverse]
    exact hhoused.cells
  rw [hnames]
  refine Meets.seq (meets_destroyMembers_settling hmembers hcells) fun before _ x _ htears => ?_
  refine Meets.report fun y hy =>
    ⟨settles_report y _, Meets.pure fun z hz => ⟨?_, fun m hm => ?_, ?_⟩⟩
  · rw [← hordered.names, List.map_reverse]
  · have hxz : Settles (fun _ => True) x z := Settles.trans hy ((settles_report y _).trans hz)
    have hmem : m.cell ∈ w.roster.members.reverse.map (·.cell) :=
      List.mem_map.2 ⟨m, List.mem_reverse.2 hm, rfl⟩
    exact hxz.isTornDown _ (htears.isTornDown _ hmem)
  · rw [List.append_nil, htears.calls, List.filter_map, List.map_map]
    refine congrArg _ (List.filter_congr fun m hm => ?_)
    rw [Function.comp_apply, hv.isTornDown_eq trivial (hhoused.houses m (List.mem_reverse.1 hm))]

/-- What was published: what became of the bus, and how many events were dropped as nobody heard. -/
def aired (w : World K) : Bus × Nat := (w.bus, w.notices.count .eventDropped)

/-- Terms for a task that publishes nothing, and neither builds nor tears down, among others that do
not either. -/
def dormant : Terms K where
  others v w := Settles (fun _ => True) v w ∧ aired w = aired v
  own v w := Settles (fun _ => True) v w ∧ aired w = aired v
  may _ _ := False
  mayExit := False
  others_refl w := ⟨.refl _ w, rfl⟩
  others_trans huv hvw := ⟨huv.1.trans hvw.1, hvw.2.trans huv.2⟩
  own_of_others h := h
  own_trans huv hvw := ⟨huv.1.trans hvw.1, hvw.2.trans huv.2⟩

theorem aired_cancelTimer (w : World K) (id : CellId) : aired (w.cancelTimer id) = aired w := by
  unfold cancelTimer
  split <;> rfl

theorem aired_report {notice : Notice} (h : notice ≠ .eventDropped) (w : World K) :
    aired (w.report notice) = aired w := by
  simp [aired, World.report, h]

theorem meets_destroy_dormant {id : CellId} {name : String} (hhouses : w.Houses id name)
    (hdown : w.isTornDown id = true) :
    Meets dormant (Cell.destroy id) (fun calls _ _ => calls = []) w := by
  refine Meets.modify fun u hu => ?_
  have hcancel : Settles (fun _ => True) u (u.cancelTimer id) :=
    settles_plain (keeps_cancelTimer u id) fun _ => face?_cancelTimer u
  refine ⟨⟨hcancel, aired_cancelTimer u id⟩, Meets.acquire (Meets.get fun v hv => ?_)⟩
  have hwv : Settles (fun _ => True) w v := hu.1.trans (hcancel.trans hv.1)
  obtain ⟨c, hc, -, hmini⟩ := hwv.cells.houses hhouses
  have hdestroyed : c.standing.destroyed = true := by
    rw [← isTornDown_of_cell? hc hmini, hwv.isTornDown_eq trivial hhouses, hdown]
  simp only [hc, hdestroyed, if_true]
  exact Meets.report fun x _ =>
    ⟨⟨settles_report x _, aired_report (by simp) x⟩, Meets.release (Meets.pure fun _ _ => rfl)⟩

theorem meets_destroyMembers_dormant {ms : List Member}
    (hms : ∀ m ∈ ms, w.roster.member? m.name = some m ∧ w.Houses m.cell m.name ∧
      w.isTornDown m.cell = true) :
    Meets dormant (destroyMembers (ms.map (·.name))) (fun calls _ _ => calls = []) w := by
  induction ms generalizing w with
  | nil => exact Meets.pure fun _ _ => rfl
  | cons m ms ih =>
    obtain ⟨⟨hmember, hhouses, hdown⟩, hrest⟩ := List.forall_mem_cons.1 hms
    refine Meets.get fun v hv => ?_
    rw [hv.1.roster, hmember]
    have hdestroy := meets_destroy_dormant (hv.1.cells.houses hhouses) (hv.1.isTornDown _ hdown)
    refine Meets.seq hdestroy fun before _ x hx hbefore => ?_
    obtain rfl := hbefore
    refine ih fun n hn => ?_
    obtain ⟨hn, hnhouses, hndown⟩ := hrest n hn
    have hwx : Settles (fun _ => True) w x := hv.1.trans hx.1
    exact ⟨hwx.roster ▸ hn, hwx.cells.houses hnhouses, hwx.isTornDown _ hndown⟩

theorem meets_shutdown_dormant (hordered : w.roster.Ordered) (hhoused : Housed w)
    (hdown : ∀ m ∈ w.roster.members, w.isTornDown m.cell = true) :
    Meets dormant shutdown (fun calls names _ => calls = [] ∧ names = w.roster.order.reverse)
      w := by
  refine Meets.get fun v hv => ?_
  have hnames : v.roster.order.reverse = w.roster.members.reverse.map (·.name) := by
    rw [hv.1.roster, ← hordered.names, List.map_reverse]
  rw [hnames]
  refine Meets.seq (meets_destroyMembers_dormant fun m hm => ?_) fun before _ x _ hbefore => ?_
  · have hm' := List.mem_reverse.1 hm
    refine ⟨?_, hv.1.cells.houses (hhoused.houses m hm'), hv.1.isTornDown _ (hdown m hm')⟩
    rw [hv.1.roster]
    exact Roster.member?_of_mem (hordered.names ▸ hordered.nodup) hm'
  · obtain rfl := hbefore
    refine Meets.report fun y _ =>
      ⟨⟨settles_report y _, aired_report (by simp) y⟩, Meets.pure fun _ _ => ⟨rfl, ?_⟩⟩
    rw [← hordered.names, List.map_reverse]

/-- Whatever a fleet went through since it was started, and as long as nobody else registers, builds
or tears down meanwhile, a shutdown runs just once the hook of each member that is not torn down
yet, ahead of the hooks of all that the member depends on or is linked to, whatever hooks answer.
All members are torn down then, and another shutdown calls no hook and publishes nothing. -/
theorem shutdown_tears_down_once {registry : Registry K}
    {ds : List (Registry.Descriptor (Factory K))} {config : Config}
    (hregistry : Registry.empty.registerAll ds = .ok registry)
    (hfounded : Founded registry config u) (hattended : Attended u v)
    {others : World K → World K → Prop}
    (hothers : ∀ x y, others x y → Settles (fun _ => True) x y) :
    Yields others shutdown v (fun calls names w =>
      names = v.roster.order.reverse ∧ w.roster = v.roster ∧
      ofMembers calls = (v.roster.members.reverse.filter fun m => !v.isTornDown m.cell).map
        (fun m => .destroy m.cell) ∧
      (ofMembers calls).Nodup ∧
      (∀ m ∈ v.roster.members, ∀ n ∈ m.needs, ∃ d ∈ v.roster.members, d.name = n ∧
        (v.isTornDown m.cell = false → v.isTornDown d.cell = false →
          [.destroy m.cell, .destroy d.cell].Sublist (ofMembers calls))) ∧
      (∀ m ∈ v.roster.members, w.isTornDown m.cell = true) ∧
      Yields (fun x y => Settles (fun _ => True) x y ∧ aired y = aired x) shutdown w
        (fun calls again x => calls = [] ∧ aired x = aired w ∧ again = names)) := by
  have hr : registry.names.Nodup := Registry.nodup_names_registerAll hregistry List.nodup_nil
  obtain ⟨p, hp, board⟩ := hfounded.boarded hr
  have hordered : v.roster.Ordered := hattended.advances.ordered (board.ordered hp)
  have hhoused : Housed v := hattended.advances.housed board.housed
  refine (meets_shutdown_settling hordered hhoused).own.yields hothers id |>.mono ?_
  rintro calls names w ⟨hvw, rfl, hdown, hcalls⟩
  refine ⟨rfl, Settles.roster hvw, hcalls, ?_, fun m hm n hn => ?_, hdown, ?_⟩
  · have hcells : ((v.roster.members.reverse.filter fun m => !v.isTornDown m.cell).map
        (·.cell)).Nodup := by
      refine List.Nodup.sublist (List.filter_sublist.map _) ?_
      rw [List.map_reverse, List.nodup_reverse]
      exact hhoused.cells
    have hmap : ofMembers calls = ((v.roster.members.reverse.filter fun m =>
        !v.isTornDown m.cell).map (·.cell)).map .destroy := by
      rw [hcalls, List.map_map]
      rfl
    rw [hmap]
    exact hcells.map fun a b h => Invocation.destroy.inj h
  · obtain ⟨d, hd, hname, hsub⟩ := hordered.sublist_reverse hm hn
    refine ⟨d, hd, hname, fun hmdown hddown => ?_⟩
    have hkept := (hsub.filter fun m => !v.isTornDown m.cell).map
      fun m => Invocation.destroy m.cell
    rw [← hcalls] at hkept
    simpa [hmdown, hddown] using hkept
  · have hordered' : w.roster.Ordered := Settles.roster hvw ▸ hordered
    have hhoused' : Housed w := by
      refine ⟨Settles.roster hvw ▸ hhoused.cells, fun m hm => ?_⟩
      exact Settles.cells hvw |>.houses (hhoused.houses m (Settles.roster hvw ▸ hm))
    have hagain := meets_shutdown_dormant hordered' hhoused'
      (Settles.roster hvw ▸ hdown)
    refine (hagain.own.yields (fun _ _ h => h) id).mono ?_
    rintro calls again x ⟨hwx, rfl, rfl⟩
    exact ⟨rfl, hwx.2, by rw [Settles.roster hvw]⟩

/-- The store was torn down before, so it is passed over; the interface came late and goes first. -/
theorem shutdown_tears_down_once_cacheAndStore :
    let u := after (start cacheAndStore {}) {}
    let v := after (Request.register (idle "api" ["cache"])).action u
    let w := after (Request.destroy "store").action v
    ∃ calls names x, Runs (Settles fun _ => True) shutdown w calls (.done names) x ∧
      names = ["api", "cache", "store"] ∧ ofMembers calls = [.destroy 2, .destroy 1] ∧
      (∀ m ∈ w.roster.members, x.isTornDown m.cell = true) ∧
      Yields (fun x y => Settles (fun _ => True) x y ∧ aired y = aired x) shutdown x
        (fun calls again y => calls = [] ∧ aired y = aired x ∧ again = names) := by
  intro u v w
  have hu : Founded cacheAndStore {} u := founded_after rfl
  have huv : Attended u v := attended_after (by decide +kernel)
  have hvw : Attended v w := attended_after (by decide +kernel)
  have halone : (alone shutdown w).map (fun run => (ofMembers run.1, run.2.1)) =
      some ([.destroy 2, .destroy 1], ["api", "cache", "store"]) := by decide +kernel
  obtain ⟨⟨calls, names, x⟩, hrun, hends⟩ := Option.map_eq_some_iff.1 halone
  obtain ⟨hcalls, hnames⟩ := Prod.mk.inj hends
  have hdown := shutdown_tears_down_once registerAll_cacheAndStore hu (huv.trans hvw)
    fun x y (h : Settles (fun _ => True) x y) => h
  obtain ⟨-, -, -, -, -, hall, hagain⟩ := (hdown calls _ x (runs_alone hrun)).2 _ rfl
  exact ⟨calls, names, x, runs_alone hrun, hnames, hcalls, hall, hagain⟩

end Fleet

end Steward
