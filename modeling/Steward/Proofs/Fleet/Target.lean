import Steward.Proofs.Cell.Guarding
import Steward.Proofs.Fleet.Addressing
/-!
What a state change is meant for: the cell of a member, or one that a member has pooled. To find that
out changes nothing, and as long as nobody else touches the member, nothing else is found.
-/
namespace Steward

open Steward.Action World

variable {K : Kit}

namespace Fleet

variable {w : World K} {change : Change}

/-- What a change is meant for: a cell, or why there is none. -/
inductive Means (w : World K) (change : Change) : Except Fault CellId → Prop
  | component {m : Member} (hm : w.roster.member? (w.roster.dealias change.component) = some m)
      (hid : change.id = none) : Means w change (.ok m.cell)
  | pooled {m : Member} {id : String} {c : Cell K} {entries : List (String × CellId)}
      {mini : CellId} (hm : w.roster.member? (w.roster.dealias change.component) = some m)
      (hid : change.id = some id) (hmanager : m.isManager = true) (hc : w.cell? m.cell = some c)
      (hpooled : c.pooled = some entries) (hmini : entries.lookup id = some mini) :
      Means w change (.ok mini)
  | unknown (hm : w.roster.member? (w.roster.dealias change.component) = none)
      (hs : w.roster.skipped? (w.roster.dealias change.component) = none) :
      Means w change (.error (.componentNotFound change.component))
  | skipped {s : Registry.Skipped}
      (hm : w.roster.member? (w.roster.dealias change.component) = none)
      (hs : w.roster.skipped? (w.roster.dealias change.component) = some s) :
      Means w change
        (.error (.componentSkipped (w.roster.dealias change.component) s.reason))
  | notAManager {m : Member} {id : String}
      (hm : w.roster.member? (w.roster.dealias change.component) = some m)
      (hid : change.id = some id) (hmanager : m.isManager = false) :
      Means w change (.error (.notAManager m.name))
  | notPooled {m : Member} {id : String}
      (hm : w.roster.member? (w.roster.dealias change.component) = some m)
      (hid : change.id = some id) (hmanager : m.isManager = true)
      (hnone : ∀ c entries, w.cell? m.cell = some c → c.pooled = some entries →
        entries.lookup id = none) :
      Means w change (.error (.miniServiceNotFound m.name id))

def meant (w : World K) (change : Change) : Except Fault CellId :=
  match w.roster.find change.component, change.id with
  | .error fault, _ => .error fault
  | .ok cell, none => .ok cell
  | .ok cell, some id =>
    let name := ((w.cell? cell).map (·.name)).getD ""
    if !(w.roster.member? name).any (·.isManager) then .error (.notAManager name)
    else match ((w.cell? cell).bind Cell.pooled).bind (·.lookup id) with
      | some mini => .ok mini
      | none => .error (.miniServiceNotFound name id)

theorem means_meant (hw : Housed w) (change : Change) : Means w change (meant w change) := by
  rcases hm : w.roster.member? (w.roster.dealias change.component) with _ | m
  · rcases hs : w.roster.skipped? (w.roster.dealias change.component) with _ | s
    · simp only [meant, Roster.find, hm, hs]
      exact .unknown hm hs
    · simp only [meant, Roster.find, hm, hs]
      exact .skipped hm hs
  · obtain ⟨hmem, hname⟩ := Roster.mem_of_member? hm
    obtain ⟨c, hc, hcname, -⟩ := hw.houses m hmem
    rcases hid : change.id with _ | id
    · simp only [meant, Roster.find, hm, hid]
      exact .component hm hid
    · have hbearer : w.roster.member? m.name = some m := hname ▸ hm
      simp only [meant, Roster.find, hm, hid, hc, Option.map_some, Option.getD_some, hcname, hbearer,
        Option.any_some, Option.bind_some]
      cases hmanager : m.isManager with
      | false => exact .notAManager hm hid hmanager
      | true =>
        rcases hmini : c.pooled.bind (·.lookup id) with _ | mini
        · refine .notPooled hm hid hmanager fun d entries hd hpooled => ?_
          obtain rfl : c = d := Option.some.inj (hc.symm.trans hd)
          rwa [hpooled, Option.bind_some] at hmini
        · obtain ⟨entries, hpooled, hlookup⟩ := Option.bind_eq_some_iff.1 hmini
          exact .pooled hm hid hmanager hc hpooled hlookup

theorem Means.unique {r r' : Except Fault CellId} (h : Means w change r) (h' : Means w change r') :
    r = r' := by
  have hpooled {m : Member} {id : String} {c : Cell K} {entries : List (String × CellId)}
      {mini : CellId} (hc : w.cell? m.cell = some c) (hpooled : c.pooled = some entries)
      (hmini : entries.lookup id = some mini) : ¬ ∀ c entries, w.cell? m.cell = some c →
        c.pooled = some entries → entries.lookup id = none := fun hnone => by
    rw [hnone c entries hc hpooled] at hmini
    cases hmini
  cases h <;> cases h' <;> simp_all only [Option.some.injEq, Except.ok.injEq, reduceCtorEq]

/-- While a change is carried out, others leave the fleet as it is, and so they leave the component
that the change names and the cell that it is meant for. -/
structure Awaits (w : World K) (change : Change) (u v : World K) : Prop where
  keeps : World.Keeps (fun _ => False) u v
  named : ∀ cell, w.roster.find change.component = .ok cell → Guards cell u v
  meant : ∀ cell, Means w change (.ok cell) → Guards cell u v

theorem Awaits.refl (w : World K) (change : Change) (u : World K) : Awaits w change u u :=
  ⟨.refl _ u, fun cell _ => .refl cell u, fun cell _ => .refl cell u⟩

theorem Awaits.trans {t u v : World K} (htu : Awaits w change t u) (huv : Awaits w change u v) :
    Awaits w change t v where
  keeps := htu.keeps.trans huv.keeps
  named cell hcell := (htu.named cell hcell).trans (huv.named cell hcell)
  meant cell hcell := (htu.meant cell hcell).trans (huv.meant cell hcell)

theorem awaits_of_reflTransGen {others : World K → World K → Prop}
    (h : ∀ u v, others u v → Awaits w change u v) {u v : World K}
    (huv : Relation.ReflTransGen others u v) : Awaits w change u v := by
  induction huv with
  | refl => exact .refl w change u
  | tail _ hlast ih => exact ih.trans (h _ _ hlast)

theorem Awaits.face? {u v : World K} {cell : CellId} {face : Face} (h : Awaits w change u v)
    (hcell : Means w change (.ok cell)) (hu : u.face? cell = some face) :
    v.face? cell = some face :=
  (h.meant cell hcell).spares face hu

section Finding

variable {T : Terms K} {m : Member} {c : Cell K}

theorem meets_lookup {u : World K} (hT : ∀ u v, T.others u v → Awaits w change u v)
    (hfind : w.roster.find change.component = .ok m.cell) (hc : w.cell? m.cell = some c)
    (hu : T.others w u) (id : String) :
    Meets T (reading m.cell fun c => (c.bind Cell.pooled).bind (·.lookup id))
      (fun calls found v => calls = [] ∧ found = c.pooled.bind (·.lookup id) ∧ T.others w v) u := by
  refine Meets.acquire (Meets.get fun x hx => Meets.release (Meets.pure fun v hv => ?_))
  have hx' := T.others_trans hu hx
  obtain ⟨d, hd, -, -, hpooled⟩ := ((hT w x hx').named m.cell hfind).exists_like hc
  refine ⟨rfl, ?_, T.others_trans hx' hv⟩
  dsimp only
  rw [hd, Option.bind_some, hpooled]

theorem meets_target (hw : Housed w) (hT : ∀ u v, T.others u v → Awaits w change u v) :
    Meets T (target change) (fun calls r v => calls = [] ∧ r = meant w change ∧ T.others w v) w := by
  refine Meets.get fun u hu => ?_
  rw [(hT w u hu).keeps.roster]
  rcases hfind : w.roster.find change.component with fault | cell
  · exact Meets.pure fun v hv => ⟨rfl, by simp only [meant, hfind], T.others_trans hu hv⟩
  rcases hid : change.id with _ | id
  · exact Meets.pure fun v hv => ⟨rfl, by simp only [meant, hfind, hid], T.others_trans hu hv⟩
  obtain ⟨m, hm, rfl⟩ := Roster.find_eq_ok_iff.1 hfind
  obtain ⟨c, hc, -⟩ := hw.houses m (Roster.mem_of_member? hm).1
  refine Meets.get fun x hx => ?_
  have hx' := T.others_trans hu hx
  obtain ⟨d, hd, hname, -⟩ := ((hT w x hx').named m.cell hfind).exists_like hc
  simp only [(hT w x hx').keeps.roster, hd, Option.map_some, Option.getD_some, hname]
  split
  · rename_i hmanager
    refine Meets.pure fun v hv => ⟨rfl, ?_, T.others_trans hx' hv⟩
    simp [meant, hfind, hid, hc, hmanager]
  · rename_i hmanager
    have hmeant : meant w change = match c.pooled.bind (·.lookup id) with
        | some mini => .ok mini
        | none => .error (.miniServiceNotFound c.name id) := by
      simp [meant, hfind, hid, hc, hmanager]
    rw [hmeant]
    refine Meets.seq (meets_lookup hT hfind hc hx' id) fun calls found y _ hfound => ?_
    obtain ⟨rfl, rfl, hy⟩ := hfound
    cases c.pooled.bind (·.lookup id) with
    | none => exact Meets.pure fun v hv => ⟨rfl, rfl, T.others_trans hy hv⟩
    | some mini => exact Meets.pure fun v hv => ⟨rfl, rfl, T.others_trans hy hv⟩

end Finding

end Fleet

end Steward
