import Steward.Proofs.Cell.Sparing
/-!
Components that are torn down for good. While nobody builds, a component that is torn down stays
so, and one that nobody tears down is not torn down. A teardown among others that leave it at that
runs the hook of its component if the component was not torn down before, and otherwise nothing.
-/
namespace Steward

open Steward.Action World

variable {K : Kit}

namespace World

variable {spared spared' : CellId → Prop} {u v w : World K} {id cell : CellId}

/-- Whether a cell holds a component that is destroyed. -/
def isTornDown (w : World K) (id : CellId) : Bool :=
  (w.cell? id).any fun c => !c.isMini && c.standing.destroyed

theorem isTornDown_of_cell? {c : Cell K} (hc : w.cell? id = some c) (hmini : c.isMini = false) :
    w.isTornDown id = c.standing.destroyed := by
  simp [isTornDown, hc, hmini]

theorem exists_cell_of_isTornDown (h : w.isTornDown id = true) :
    ∃ c, w.cell? id = some c ∧ c.isMini = false ∧ c.standing.destroyed = true := by
  obtain ⟨c, hc, h⟩ := (Option.any_eq_true _ _).1 h
  simp only [Bool.and_eq_true, Bool.not_eq_true'] at h
  exact ⟨c, hc, h.1, h.2⟩

/-- All cells endure and nobody joins the fleet. No component that is torn down is built again, and
of those that are spared none is torn down. -/
structure Settles (spared : CellId → Prop) (v w : World K) : Prop where
  roster : w.roster = v.roster
  cells : KeepsCells spared v w
  isTornDown : ∀ id, v.isTornDown id = true → w.isTornDown id = true

theorem Settles.refl (spared : CellId → Prop) (w : World K) : Settles spared w w :=
  ⟨rfl, .refl spared w, fun _ h => h⟩

theorem Settles.trans (huv : Settles spared u v) (hvw : Settles spared v w) :
    Settles spared u w where
  roster := hvw.roster.trans huv.roster
  cells := huv.cells.trans hvw.cells
  isTornDown id h := hvw.isTornDown id (huv.isTornDown id h)

theorem Settles.mono (h : Settles spared v w) (hsub : ∀ id, spared' id → spared id) :
    Settles spared' v w :=
  ⟨h.roster, h.cells.mono hsub, h.isTornDown⟩

theorem Settles.isTornDown_eq {name : String} (h : Settles spared v w) (hid : spared id)
    (hhouses : v.Houses id name) : w.isTornDown id = v.isTornDown id := by
  obtain ⟨c, hc, -, hmini⟩ := hhouses
  rw [Bool.eq_iff_iff]
  refine ⟨fun hdown => ?_, h.isTornDown id⟩
  obtain ⟨d, hd, hcd⟩ := h.cells id c hc
  rw [isTornDown_of_cell? hd (hcd.isMini.trans hmini)] at hdown
  rw [isTornDown_of_cell? hc hmini]
  exact hcd.destroyed hid hmini hdown

theorem standing_of_face? {f : Standing → Standing} {c d : Cell K}
    (h : w.face? id = if cell = id then (v.face? id).map (Face.restand f) else v.face? id)
    (hc : v.cell? id = some c) (hd : w.cell? id = some d) :
    d.standing = if cell = id then f c.standing else c.standing := by
  rw [face?_of_cell? hc, face?_of_cell? hd] at h
  split at h
  · rename_i heq
    rw [if_pos heq]
    exact congrArg Face.standing (Option.some.inj h)
  · rename_i hne
    rw [if_neg hne]
    exact congrArg Face.standing (Option.some.inj h)

/-- One cell comes to stand elsewhere: that of a mini-service, or one that is as far from being
destroyed as it was, if it is spared, or else may be nearer. -/
theorem settles_restand {f : Standing → Standing} (hkeeps : Keeps (fun _ => False) v w)
    (hface : ∀ id, w.face? id =
      if cell = id then (v.face? id).map (Face.restand f) else v.face? id)
    (hf : v.holdsMini cell = true ∨ ∀ s, (s.destroyed = true → (f s).destroyed = true) ∧
      (spared cell → (f s).destroyed = true → s.destroyed = true)) : Settles spared v w := by
  have hplace : ∀ {id c}, v.cell? id = some c → c.isMini = false → cell = id →
      ∀ s, (s.destroyed = true → (f s).destroyed = true) ∧
        (spared id → (f s).destroyed = true → s.destroyed = true) := by
    rintro id c hc hmini rfl
    refine hf.resolve_left ?_
    simp [holdsMini, hc, hmini]
  refine ⟨hkeeps.roster, fun id c hc => ?_, fun id hdown => ?_⟩
  · obtain ⟨d, hd, hcd⟩ := hkeeps.cells id c hc
    refine ⟨d, hd, hcd.name, hcd.isMini, fun hs hmini hdestroyed => ?_⟩
    rw [standing_of_face? (hface id) hc hd] at hdestroyed
    split at hdestroyed
    · exact (hplace hc hmini ‹_› _).2 hs hdestroyed
    · exact hdestroyed
  · obtain ⟨c, hc, hmini, hdestroyed⟩ := exists_cell_of_isTornDown hdown
    obtain ⟨d, hd, hcd⟩ := hkeeps.cells id c hc
    rw [isTornDown_of_cell? hd (hcd.isMini.trans hmini), standing_of_face? (hface id) hc hd]
    split
    · exact (hplace hc hmini ‹_› _).1 hdestroyed
    · exact hdestroyed

theorem settles_plain (hkeeps : Keeps (fun _ => False) v w)
    (hface : ∀ id, w.face? id = v.face? id) : Settles spared v w := by
  have hsame (x : CellId) :
      w.face? x = if 0 = x then (v.face? x).map (Face.restand id) else v.face? x := by
    have hid : Face.restand id = id := rfl
    rw [hface x, hid, Option.map_id_fun, id_eq, ite_self]
  exact settles_restand hkeeps hsame (.inr fun _ => ⟨id, fun _ => id⟩)

theorem settles_report (w : World K) (notice : Notice) : Settles spared w (w.report notice) :=
  settles_plain (keeps_report w notice) fun _ => face?_report w notice

theorem settles_addCell (w : World K) (c : Cell K) : Settles spared w (w.addCell c) where
  roster := rfl
  cells := (keeps_addCell w c).cells
  isTornDown id hdown := by
    obtain ⟨d, hd, hmini, hdestroyed⟩ := exists_cell_of_isTornDown hdown
    obtain ⟨e, he, hface⟩ := exists_cell_of_face? (spares_addCell w c _ (face?_of_cell? hd))
    simp only [Cell.face, Face.mk.injEq] at hface
    rw [isTornDown_of_cell? he (hface.2.1.trans hmini), hface.2.2]
    exact hdestroyed

end World

namespace Cell

variable {spared : CellId → Prop} {w : World K} {id cell : CellId}

/-- Terms for a task that builds no component and tears down none that is spared, among others that
neither build nor tear down. -/
def settling (spared : CellId → Prop) : Terms K where
  others := Settles fun _ => True
  own := Settles spared
  may _ _ := True
  mayExit := False
  others_refl := .refl _
  others_trans := .trans
  own_of_others h := h.mono fun _ _ => trivial
  own_trans := .trans

theorem lends_settling : Lends (settling (K := K) spared) where
  note v line := settles_plain (keeps_note v line) fun _ => face?_note v line
  report := settles_report
  mini _ _ _ := trivial
  putBack := by
    intro v w id c inner hc hlike hown
    have hsame : ∀ d, w.cell? id = some d → d.isMini = ({ d with inner } : Cell K).isMini := by
      intro d hd
      obtain ⟨e, he, hce⟩ := Settles.cells hown id c hc
      obtain rfl : e = d := Option.some.inj (he.symm.trans hd)
      exact hce.isMini.trans hlike
    refine settles_plain (keeps_putBack hsame) fun x => ?_
    rw [face?_modifyCell]
    split
    · subst x
      rw [face?]
      refine Option.map_congr fun d hd => ?_
      rw [Cell.face, Cell.face, hsame d hd]
    · rfl

theorem yielding_settling (hmini : w.holdsMini cell = true) :
    Yielding (settling spared) cell w :=
  fun _ _ _ hu hkeeps hface =>
    settles_restand hkeeps hface (.inl ((Settles.cells hu).holdsMini hmini))

theorem quiet_carryPool_settling (call : PoolHook.Call K.Mini) :
    Quiet (settling spared) (carryPool call) w :=
  quiet_carryPool_of lends_settling settles_addCell (fun _ _ _ => yielding_settling) call

theorem settling_mono {α : Type} {spared' : CellId → Prop} {p : Action K α}
    {post : Calls K → α → World K → Prop} (h : Meets (settling spared) p post w)
    (hsub : ∀ id, spared' id → spared id) :
    Meets (settling spared') p (fun calls a v => Settles spared w v ∧ post calls a v) w :=
  h.own.relax (fun _ _ h => h) (fun _ _ h => h.mono hsub) (fun _ _ h => h) fun h => h

theorem isTornDown_endDestroy {name : String} (ending : Ending) (hid : w.Houses id name) :
    (endDestroy id ending w).isTornDown id = true := by
  obtain ⟨c, hc, -, hmini⟩ := hid
  have hkeeps : Keeps (fun _ => False) w (endDestroy id ending w) :=
    keeps_endDestroy ending False.elim
  obtain ⟨d, hd, hcd⟩ := hkeeps.cells id c hc
  rw [isTornDown_of_cell? hd (hcd.isMini.trans hmini),
    standing_of_face? (face?_endDestroy ending w) hc hd, if_pos rfl]
  rfl

theorem meets_destroy_settling {name : String} (hid : w.Houses id name) :
    Meets (settling fun cell => cell ≠ id) (destroy id) (fun calls _ v =>
      v.isTornDown id = true ∧ ofMembers calls = if w.isTornDown id then [] else [.destroy id])
      w := by
  refine Meets.modify fun u hu => ?_
  have hcancel {spared : CellId → Prop} : Settles spared u (u.cancelTimer id) :=
    settles_plain (keeps_cancelTimer u id) fun _ => face?_cancelTimer u
  refine ⟨hcancel, Meets.acquire (Meets.get fun v hv => ?_)⟩
  have hwv : Settles (fun _ => True) w v := Settles.trans hu (hcancel.trans hv)
  obtain ⟨c, hc, -, hmini⟩ := hwv.cells.houses hid
  have hsame : w.isTornDown id = c.standing.destroyed := by
    rw [← hwv.isTornDown_eq trivial hid, isTornDown_of_cell? hc hmini]
  simp only [hc, hsame]
  split
  · rename_i hdown
    refine Meets.report fun x hx => ⟨settles_report x _, Meets.release ?_⟩
    refine Meets.pure fun y hy => ⟨?_, rfl⟩
    have hvy : Settles (fun _ => True) v y := Settles.trans hx ((settles_report x _).trans hy)
    exact hvy.isTornDown id ((isTornDown_of_cell? hc hmini).trans hdown)
  · refine Meets.modify fun x hx => ?_
    have hbegin : Settles (fun cell => cell ≠ id) x
        (x.modifyCell id fun c => { c with standing := c.standing.beginDestroy }) :=
      settles_restand keeps_beginDestroy (fun _ => face?_beginDestroy x)
        (.inr fun _ => ⟨fun h => h, fun _ h => h⟩)
    have hhouses := hbegin.cells.houses (Settles.cells hx |>.houses (hwv.cells.houses hid))
    refine ⟨hbegin, Meets.seq (meets_tear_of lends_settling (fun _ _ => trivial)
      fun _ _ _ call _ _ => quiet_carryPool_settling call) fun before ending y hy hbefore => ?_⟩
    obtain ⟨a, ha, hbefore⟩ := hbefore
    have hcalls := hbefore.of_houses (Settles.cells ha |>.houses hhouses)
    refine Meets.modify fun z hz => ?_
    have hend : Settles (fun cell => cell ≠ id) z (endDestroy id ending z) :=
      settles_restand (keeps_endDestroy ending False.elim) (fun _ => face?_endDestroy ending z)
        (.inr fun _ => ⟨fun _ => rfl, fun h => absurd rfl h⟩)
    refine ⟨hend, Meets.release (Meets.pure fun b hb => ⟨?_, ?_⟩)⟩
    · exact Settles.isTornDown hb id (isTornDown_endDestroy ending
        (Settles.cells hz |>.houses (Settles.cells hy |>.houses hhouses)))
    · rw [List.append_nil]
      exact hcalls

structure TearsDown (ids : List CellId) (w : World K) (calls : Calls K) (x : World K) : Prop where
  isTornDown : ∀ id ∈ ids, x.isTornDown id = true
  calls : ofMembers calls = (ids.filter fun id => !w.isTornDown id).map .destroy

theorem TearsDown.nil (w x : World K) : TearsDown [] w [] x := ⟨by simp, rfl⟩

theorem TearsDown.cons {ids : List CellId} {x y : World K} {before later : Calls K}
    (hid : id ∉ ids) (hids : ∀ i ∈ ids, ∃ n, w.Houses i n)
    (hfirst : Settles (fun cell => cell ≠ id) w x) (hdown : x.isTornDown id = true)
    (hbefore : ofMembers before = if w.isTornDown id then [] else [.destroy id])
    (hrest : Settles (fun _ => False) x y) (h : TearsDown ids x later y) :
    TearsDown (id :: ids) w (before ++ later) y where
  isTornDown := List.forall_mem_cons.2 ⟨hrest.isTornDown id hdown, h.isTornDown⟩
  calls := by
    have hfilter : ids.filter (fun i => !x.isTornDown i) = ids.filter fun i => !w.isTornDown i := by
      refine List.filter_congr fun i hi => ?_
      obtain ⟨n, hn⟩ := hids i hi
      rw [hfirst.isTornDown_eq (fun heq => hid (heq ▸ hi)) hn]
    rw [ofMembers_append, hbefore, h.calls, hfilter, List.filter_cons]
    cases w.isTornDown id <;> rfl

theorem TearsDown.later {ids : List CellId} {x y : World K} {calls : Calls K}
    (h : TearsDown ids w calls x) (hxy : Settles (fun _ => True) x y) : TearsDown ids w calls y :=
  ⟨fun id hid => hxy.isTornDown id (h.isTornDown id hid), h.calls⟩

/-- How a component is torn down in the course of a run. Up to some moment nothing is called, and
from some moment on nothing is called again; at that second moment the component is torn down, and
what is called in between is its hook, once, unless it was torn down at the first. -/
def Razes {α : Type} (others : World K → World K → Prop) (id : CellId) (p : Action K α)
    (u : World K) (calls : Calls K) (q : Action K α) (x : World K) : Prop :=
  ∃ (r s : Action K α) (v w : World K), Runs others p u [] r v ∧ Runs others r v calls s w ∧
    Runs others s w [] q x ∧ w.isTornDown id = true ∧
    ofMembers calls = if v.isTornDown id then [] else [.destroy id]

theorem Razes.bind {α β : Type} {others : World K → World K → Prop} {p q : Action K α}
    {u x : World K} {calls : Calls K} (h : Razes others id p u calls q x) (f : α → Action K β) :
    Razes others id (p.bind f) u calls (q.bind f) x := by
  obtain ⟨r, s, v, w, hfirst, hmid, hlast, hends⟩ := h
  exact ⟨r.bind f, s.bind f, v, w, hfirst.bind f, hmid.bind f, hlast.bind f, hends⟩

theorem Razes.later {α : Type} {others : World K → World K → Prop} {p q r : Action K α}
    {u x y : World K} {calls : Calls K} (h : Razes others id p u calls q x)
    (run : Runs others q x [] r y) : Razes others id p u calls r y := by
  obtain ⟨r, s, v, w, hfirst, hmid, hlast, hends⟩ := h
  exact ⟨r, s, v, w, hfirst, hmid, hlast.trans run, hends⟩

/-- Whatever others do meanwhile, a teardown that comes to its end has torn down its component. -/
theorem razes_destroy {others : World K → World K → Prop} {name : String} {u x : World K}
    {calls : Calls K} (hothers : ∀ v w, others v w → KeepsCells (fun _ => False) v w)
    (hid : u.Houses id name) (run : Runs others (destroy id) u calls (.done ()) x) :
    Razes others id (destroy id) u calls (.done ()) x := by
  have hT : Hosts (keeping (K := K) fun _ _ => True) fun _ => False :=
    hosts_keeping fun _ _ _ => trivial
  have hhouses {q : Action K Unit} {before : Calls K} {v : World K}
      (run : Runs others (destroy id) u before q v) : v.Houses id name :=
    KeepsCells.houses ((run.weaken hothers).meets
      (meets_destroy hT False.elim fun _ _ => trivial)).1 hid
  obtain ⟨t, hcancel, hrest⟩ := Runs.of_update run
  obtain ⟨v, hlook, hrest⟩ := Runs.of_update (Runs.of_acquire hrest)
  have hfirst : Runs others (destroy id) u [] _ v :=
    (hcancel.trans (.update (.acquire hlook))).trans (.update (.here _ _))
  obtain ⟨c, hc, -, hmini⟩ := hhouses hfirst
  have hsame : v.isTornDown id = c.standing.destroyed := isTornDown_of_cell? hc hmini
  simp only [Program.done_bind, hc, id_eq] at hfirst hrest
  by_cases hdown : c.standing.destroyed = true
  · rw [if_pos hdown] at hfirst hrest
    have hlast := hrest
    obtain ⟨y, -, hrest⟩ := Runs.of_update hrest
    obtain ⟨rfl, -⟩ := Runs.of_done (Runs.of_release hrest)
    exact ⟨_, _, v, v, hfirst, .here _ v, hlast, hsame.trans hdown, by
      rw [hsame, if_pos hdown, ofMembers_nil]⟩
  · rw [if_neg hdown] at hfirst hrest
    obtain ⟨y, hbegin, hrest⟩ := Runs.of_update hrest
    have hopen : Runs others _ v [] (tear id >>= _) _ := hbegin.trans (.update (.here _ _))
    obtain ⟨before, ending, z, later, rfl, htear, hrest⟩ := Runs.split (p := tear id) hrest
    obtain ⟨a, hend, hrest⟩ := Runs.of_update hrest
    obtain ⟨rfl, -⟩ := Runs.of_done (Runs.of_release hrest)
    have hreach := hopen.trans ((htear.bind _).trans hend)
    refine ⟨_, _, v, endDestroy id ending a, hfirst, ?_, hrest, ?_, ?_⟩
    · exact hopen.trans ((htear.bind _).trans (hend.trans (.update (.here _ _))))
    · exact isTornDown_endDestroy ending (hhouses (hfirst.trans hreach))
    · have hcalls := (htear.weaken hothers).ends (meets_tear hT fun _ _ => trivial)
      rw [hsame, if_neg hdown, List.append_nil]
      exact hcalls.of_houses (hhouses (hfirst.trans hopen))

end Cell

end Steward
