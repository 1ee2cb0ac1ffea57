import Steward.Fleet.Boot
import Steward.Proofs.Cell.Sparing
import Steward.Proofs.Throng.Regime
import Steward.Proofs.Waiting.Bounds
/-!
An order of all locks. Components come after all that they hold on to, since their factories can
only find components that are there already. The mini-services of a manager come after what the
manager holds on to, and before the manager itself. Whoever has locks waits for none that does not
come before all of them.
-/
namespace Steward

variable {K : Kit}

namespace World

variable {u v w : World K}

/-- No cell comes or goes or holds anything else than before, and nobody new becomes a member. -/
structure KeepsInners (v w : World K) : Prop where
  size : w.cells.size = v.cells.size
  inner : ∀ id, (w.cell? id).map (·.inner) = (v.cell? id).map (·.inner)
  members : w.roster.members ⊆ v.roster.members

theorem KeepsInners.refl (w : World K) : w.KeepsInners w := ⟨rfl, fun _ => rfl, fun _ h => h⟩

theorem KeepsInners.trans (huv : u.KeepsInners v) (hvw : v.KeepsInners w) : u.KeepsInners w where
  size := hvw.size.trans huv.size
  inner id := (hvw.inner id).trans (huv.inner id)
  members := fun _ h => huv.members (hvw.members h)

theorem keepsInners_of_eq (hcells : w.cells = v.cells)
    (hmembers : w.roster.members ⊆ v.roster.members) : v.KeepsInners w where
  size := by rw [hcells]
  inner id := by rw [cell?, cell?, hcells]
  members := hmembers

theorem keepsInners_modifyCell (w : World K) (id : CellId) {f : Cell K → Cell K}
    (hf : ∀ c, (f c).inner = c.inner) : w.KeepsInners (w.modifyCell id f) where
  size := Array.size_modify ..
  inner cell := by
    rw [cell?_modifyCell]
    split
    · rw [Option.map_map]
      exact congrArg (Option.map · _) (funext hf)
    · rfl
  members := fun _ h => h

theorem KeepsInners.note (h : v.KeepsInners w) (line : String) : v.KeepsInners (w.note line) :=
  h.trans (keepsInners_of_eq rfl fun _ h => h)

theorem KeepsInners.report (h : v.KeepsInners w) (notice : Notice) :
    v.KeepsInners (w.report notice) :=
  h.trans (keepsInners_of_eq rfl fun _ h => h)

theorem keepsInners_notes (lines : List String) (w : World K) :
    w.KeepsInners (lines.foldl World.note w) := by
  induction lines generalizing w with
  | nil => exact .refl w
  | cons line lines ih => exact ((KeepsInners.refl w).note line).trans (ih _)

theorem keepsInners_reports (notices : List Notice) (w : World K) :
    w.KeepsInners (notices.foldl World.report w) := by
  induction notices generalizing w with
  | nil => exact .refl w
  | cons notice notices ih => exact ((KeepsInners.refl w).report notice).trans (ih _)

theorem KeepsInners.publish (h : v.KeepsInners w) (id : CellId) (e : Event) :
    v.KeepsInners (w.publish id e) := by
  unfold World.publish
  split
  · split
    · split
      · exact h.trans (keepsInners_of_eq rfl fun _ h => h)
      · exact h.report _
    · exact h
  · exact h

theorem keepsInners_cancelTimer (w : World K) (id : CellId) :
    w.KeepsInners (w.cancelTimer id) := by
  unfold cancelTimer
  split
  · have h : w.KeepsInners (w.modifyCell id fun c => { c with timer := none }) :=
      keepsInners_modifyCell w id fun _ => rfl
    exact h.trans (keepsInners_of_eq rfl fun _ h => h)
  · exact .refl w

theorem keepsInners_armTimer (w : World K) (id : CellId) : w.KeepsInners (w.armTimer id) := by
  have h : (w.cancelTimer id).KeepsInners ((w.cancelTimer id).modifyCell id fun c =>
      { c with timer := some (w.cancelTimer id).nextTask }) :=
    keepsInners_modifyCell _ id fun _ => rfl
  exact (keepsInners_cancelTimer w id).trans (h.trans (keepsInners_of_eq rfl fun _ h => h))

end World

section Changes

open World

variable {id : CellId}

theorem Cell.keepsInners_endBuild (scope : Scope) (ending : Ending) (report : Report)
    (previous : Status) (w : World K) :
    w.KeepsInners (endBuild id scope ending report previous w) := by
  unfold endBuild
  split
  · exact .refl w
  · exact .publish (.report (keepsInners_modifyCell w id (by intro; rfl)) _) _ _

theorem Cell.keepsInners_armAfter (report : Report) (w : World K) :
    w.KeepsInners (armAfter id report w) := by
  unfold armAfter
  split
  · split
    · exact keepsInners_armTimer w id
    · exact .refl w
  · exact .refl w

theorem Cell.keepsInners_endDestroy (ending : Ending) (w : World K) :
    w.KeepsInners (endDestroy id ending w) := by
  unfold endDestroy
  split
  · exact .refl w
  · refine .publish (.report ?_ _) _ _
    split
    · exact .report (keepsInners_modifyCell w id (by intro; rfl)) _
    · exact keepsInners_modifyCell w id (by intro; rfl)

theorem Cell.keepsInners_assign (status : Status) (w : World K) :
    w.KeepsInners (assign id status w) := by
  unfold assign
  split
  · exact .refl w
  · refine .publish ?_ _ _
    split
    · exact keepsInners_modifyCell w id (by intro; rfl)
    · exact .report (keepsInners_modifyCell w id (by intro; rfl)) _

theorem Rotation.keepsInners_adopt (store : Status) (w : World K) :
    w.KeepsInners (adopt id store w) := by
  unfold adopt
  split
  · exact .refl w
  · exact .publish (.report (keepsInners_modifyCell w id (by intro; rfl)) _) _ _

theorem Rotation.keepsInners_install (attempts : Nat) (w : World K) :
    w.KeepsInners (install id attempts w) := by
  unfold install
  split
  · exact .refl w
  · dsimp only
    split
    · exact .publish (.report (keepsInners_modifyCell w id (by intro; rfl)) _) _ _
    · exact .publish (.publish (.report (keepsInners_modifyCell w id (by intro; rfl)) _) _ _) _ _

theorem Rotation.keepsInners_settle (finish : Finish) (name : String) (w : World K) :
    w.KeepsInners (finish.settle id name w) := by
  cases finish with
  | granted credential attempts => exact keepsInners_install attempts w
  | exhausted attempts message =>
    show w.KeepsInners (giveUp id attempts message w)
    unfold giveUp
    split
    · exact .refl w
    · exact .publish (.report (.refl w) _) _ _
  | failed attempts message => exact .report (.refl w) _
  | overflowed => exact .refl w
  | panicked => exact .refl w

end Changes

def below (owner : CellId → Option CellId) (id : CellId) : Set CellId :=
  {x | x < id ∧ owner x = none}

def minisOf (owner : CellId → Option CellId) (id : CellId) : Set CellId := {x | owner x = some id}

theorem below_subset {owner owner' : CellId → Option CellId} {n id : CellId}
    (h : ∀ x < n, owner' x = owner x) (hid : id ≤ n) : below owner id ⊆ below owner' id :=
  fun x hx => ⟨hx.1, (h x (Nat.lt_of_lt_of_le hx.1 hid)).trans hx.2⟩

/-- A cell may hold this: a component that holds on to what comes before it, or a mini-service that
holds on to what comes before its manager. -/
def Fits (B : Bounds K) (owner : CellId → Option CellId) (id : CellId) : Inner K → Prop
  | .service s => owner id = none ∧ B.Keeps (below owner id) (minisOf owner id) s
  | .mini m => ∃ manager < id, owner id = some manager ∧ B.miniRefs m ⊆ below owner manager

structure Estate (B : Bounds K) where
  world : World K
  owner : CellId → Option CellId
  owner_of_le : ∀ x, world.cells.size ≤ x → owner x = none
  fits : ∀ id inner, (world.cell? id).map (·.inner) = some inner → Fits B owner id inner
  members : ∀ m ∈ world.roster.members, m.cell < world.cells.size ∧ owner m.cell = none

namespace Estate

variable {B : Bounds K} {e e' e'' : Estate B} {id x : CellId} {held : List CellId}

def size (e : Estate B) : Nat := e.world.cells.size

def rank (e : Estate B) (x : CellId) : Nat :=
  match e.owner x with
  | none => 2 * x + 1
  | some manager => 2 * manager

theorem rank_of_none (h : e.owner x = none) : e.rank x = 2 * x + 1 := by
  simp only [rank, h]

theorem rank_of_some {manager : CellId} (h : e.owner x = some manager) :
    e.rank x = 2 * manager := by
  simp only [rank, h]

theorem lt_size_of_owner {manager : CellId} (h : e.owner x = some manager) : x < e.size := by
  by_contra hle
  rw [e.owner_of_le x (Nat.le_of_not_lt hle)] at h
  cases h

structure Later (e e' : Estate B) : Prop where
  size : e.size ≤ e'.size
  owner : ∀ x < e.size, e'.owner x = e.owner x

theorem Later.refl (e : Estate B) : e.Later e := ⟨Nat.le_refl _, fun _ _ => rfl⟩

theorem Later.trans (h : e.Later e') (h' : e'.Later e'') : e.Later e'' where
  size := Nat.le_trans h.size h'.size
  owner x hx := (h'.owner x (Nat.lt_of_lt_of_le hx h.size)).trans (h.owner x hx)

theorem Later.rank (h : e.Later e') (hx : x < e.size) : e'.rank x = e.rank x := by
  simp only [Estate.rank, h.owner x hx]

theorem Later.below_subset (h : e.Later e') (hid : id ≤ e.size) :
    below e.owner id ⊆ below e'.owner id := Steward.below_subset h.owner hid

theorem Later.minisOf_subset (h : e.Later e') : minisOf e.owner id ⊆ minisOf e'.owner id :=
  fun x hx => (h.owner x (lt_size_of_owner hx)).trans hx

structure IsFree (e : Estate B) (held : List CellId) (x : CellId) : Prop where
  lt_size : x < e.size
  rank_lt : ∀ h ∈ held, h < e.size ∧ e.rank x < e.rank h

structure IsAtWork (e : Estate B) (held : List CellId) (id : CellId) : Prop where
  lt_size : id < e.size
  rank_le : ∀ h ∈ held, h < e.size ∧ e.rank id ≤ e.rank h

theorem IsFree.later (h : e.IsFree held x) (he : e.Later e') : e'.IsFree held x where
  lt_size := Nat.lt_of_lt_of_le h.lt_size he.size
  rank_lt y hy := by
    obtain ⟨hsize, hrank⟩ := h.rank_lt y hy
    rw [he.rank h.lt_size, he.rank hsize]
    exact ⟨Nat.lt_of_lt_of_le hsize he.size, hrank⟩

theorem IsAtWork.later (h : e.IsAtWork held id) (he : e.Later e') : e'.IsAtWork held id where
  lt_size := Nat.lt_of_lt_of_le h.lt_size he.size
  rank_le y hy := by
    obtain ⟨hsize, hrank⟩ := h.rank_le y hy
    rw [he.rank h.lt_size, he.rank hsize]
    exact ⟨Nat.lt_of_lt_of_le hsize he.size, hrank⟩

theorem isFree_nil (h : x < e.size) : e.IsFree [] x := ⟨h, by simp⟩

theorem IsFree.isAtWork (h : e.IsFree held id) : e.IsAtWork (id :: held) id where
  lt_size := h.lt_size
  rank_le y hy := by
    rcases List.mem_cons.1 hy with rfl | hy
    · exact ⟨h.lt_size, Nat.le_refl _⟩
    · exact ⟨(h.rank_lt y hy).1, Nat.le_of_lt (h.rank_lt y hy).2⟩

theorem IsAtWork.isFree (h : e.IsAtWork held id) (hx : x < e.size) (hrank : e.rank x < e.rank id) :
    e.IsFree held x where
  lt_size := hx
  rank_lt y hy := ⟨(h.rank_le y hy).1, Nat.lt_of_lt_of_le hrank (h.rank_le y hy).2⟩

theorem IsAtWork.isFree_below (h : e.IsAtWork held id) (hid : e.owner id = none)
    (hx : x ∈ below e.owner id) : e.IsFree held x := by
  have hodd (m n : Nat) (h : m < n) : 2 * m + 1 < 2 * n + 1 := by omega
  refine h.isFree (Nat.lt_trans hx.1 h.lt_size) ?_
  rw [rank_of_none hx.2, rank_of_none hid]
  exact hodd x id hx.1

theorem IsAtWork.isFree_mini (h : e.IsAtWork held id) (hid : e.owner id = none)
    (hx : x ∈ minisOf e.owner id) : e.IsFree held x := by
  refine h.isFree (lt_size_of_owner hx) ?_
  rw [rank_of_some hx, rank_of_none hid]
  omega

theorem IsAtWork.isFree_below_manager {manager : CellId} (h : e.IsAtWork held id)
    (hid : e.owner id = some manager) (hlt : manager < id) (hx : x ∈ below e.owner manager) :
    e.IsFree held x := by
  have heven (m n : Nat) (h : m < n) : 2 * m + 1 < 2 * n := by omega
  refine h.isFree (Nat.lt_trans hx.1 (Nat.lt_trans hlt h.lt_size)) ?_
  rw [rank_of_none hx.2, rank_of_some hid]
  exact heven x manager hx.1

theorem IsAtWork.isFree_of_fits {inner : Inner K} (h : e.IsAtWork held id)
    (hfits : Fits B e.owner id inner) : ∀ x ∈ B.ofInner inner, e.IsFree held x := by
  intro x hx
  cases inner with
  | service s =>
    obtain ⟨hid, hkeeps⟩ := hfits
    rcases hx with hx | hx
    · exact h.isFree_below hid (hkeeps.refs hx)
    · exact h.isFree_mini hid (hkeeps.minis hx)
  | mini m =>
    obtain ⟨manager, hlt, hid, hrefs⟩ := hfits
    exact h.isFree_below_manager hid hlt (hrefs hx)

theorem exists_inner (h : id < e.size) :
    ∃ inner, (e.world.cell? id).map (·.inner) = some inner := by
  have hsome : e.world.cell? id = some e.world.cells[id] := Array.getElem?_eq_getElem h
  exact ⟨_, by rw [hsome, Option.map_some]⟩

def adjust (e : Estate B) (w : World K) (h : e.world.KeepsInners w) : Estate B where
  world := w
  owner := e.owner
  owner_of_le x hx := e.owner_of_le x (by rwa [h.size] at hx)
  fits id inner hinner := e.fits id inner (by rwa [h.inner] at hinner)
  members m hm := by
    rw [h.size]
    exact e.members m (h.members hm)

theorem later_adjust (e : Estate B) (w : World K) (h : e.world.KeepsInners w) :
    e.Later (e.adjust w h) :=
  ⟨Nat.le_of_eq h.size.symm, fun _ _ => rfl⟩

def replace (e : Estate B) (id : CellId) (inner : Inner K) (h : Fits B e.owner id inner) :
    Estate B where
  world := e.world.modifyCell id fun c => { c with inner }
  owner := e.owner
  owner_of_le x hx := e.owner_of_le x (by rwa [World.modifyCell, Array.size_modify] at hx)
  fits x other hother := by
    rw [World.cell?_modifyCell] at hother
    split at hother
    · rename_i hx
      rw [Option.map_map] at hother
      obtain ⟨c, -, hc⟩ := Option.map_eq_some_iff.1 hother
      obtain rfl : inner = other := hc
      exact hx ▸ h
    · exact e.fits x other hother
  members m hm := by
    rw [World.modifyCell, Array.size_modify]
    exact e.members m hm

theorem later_replace (e : Estate B) (id : CellId) (inner : Inner K)
    (h : Fits B e.owner id inner) : e.Later (e.replace id inner h) :=
  ⟨Nat.le_of_eq (Array.size_modify ..).symm, fun _ _ => rfl⟩

theorem fits_of_later {owner owner' : CellId → Option CellId} {n : Nat} {inner : Inner K}
    (hle : ∀ x, n ≤ x → owner x = none) (howner : ∀ x < n, owner' x = owner x) (hid : id < n)
    (h : Fits B owner id inner) : Fits B owner' id inner := by
  cases inner with
  | service s =>
    obtain ⟨hnone, hkeeps⟩ := h
    have hbelow := below_subset howner (Nat.le_of_lt hid)
    refine ⟨(howner id hid).trans hnone, hkeeps.refs.trans hbelow, fun x hx => ?_⟩
    have hx' : owner x = some id := hkeeps.minis hx
    have hlt : x < n := by
      by_contra hge
      rw [hle x (Nat.le_of_not_lt hge)] at hx'
      cases hx'
    exact (howner x hlt).trans hx'
  | mini m =>
    obtain ⟨manager, hlt, hsome, hrefs⟩ := h
    have hbelow := below_subset howner (Nat.le_of_lt (Nat.lt_trans hlt hid))
    exact ⟨manager, hlt, (howner id hid).trans hsome, hrefs.trans hbelow⟩

theorem cell?_addCell (w : World K) (c : Cell K) :
    (w.addCell c).cell? id = if id = w.cells.size then some c else w.cell? id := by
  rw [World.cell?, World.addCell, Array.getElem?_push]
  rfl

def add (e : Estate B) (c : Cell K) (manager? : Option CellId)
    (h : Fits B (Function.update e.owner e.size manager?) e.size c.inner) : Estate B where
  world := e.world.addCell c
  owner := Function.update e.owner e.size manager?
  owner_of_le x hx := by
    rw [World.addCell, Array.size_push] at hx
    exact (Function.update_of_ne (Nat.ne_of_gt hx) ..).trans (e.owner_of_le x (Nat.le_of_lt hx))
  fits x inner hinner := by
    rw [cell?_addCell] at hinner
    split at hinner
    · rename_i hx
      subst hx
      obtain rfl : c.inner = inner := Option.some.inj hinner
      exact h
    · obtain ⟨d, hd, -⟩ := Option.map_eq_some_iff.1 hinner
      have hlt : x < e.size := (Array.getElem?_eq_some_iff.1 hd).1
      exact fits_of_later e.owner_of_le (fun y hy => Function.update_of_ne (Nat.ne_of_lt hy) ..) hlt
        (e.fits x inner hinner)
  members m hm := by
    obtain ⟨hlt, hnone⟩ := e.members m hm
    rw [World.addCell, Array.size_push]
    exact ⟨Nat.lt_succ_of_lt hlt, (Function.update_of_ne (Nat.ne_of_lt hlt) ..).trans hnone⟩

theorem later_add (e : Estate B) (c : Cell K) (manager? : Option CellId)
    (h : Fits B (Function.update e.owner e.size manager?) e.size c.inner) :
    e.Later (e.add c manager? h) where
  size := by
    show e.size ≤ (e.world.addCell c).cells.size
    rw [World.addCell, Array.size_push]
    exact Nat.le_succ _
  owner x hx := Function.update_of_ne (Nat.ne_of_lt hx) ..

theorem below_subset_update {manager? : Option CellId} (hid : id ≤ e.size) :
    below e.owner id ⊆ below (Function.update e.owner e.size manager?) id :=
  below_subset (fun _ hx => Function.update_of_ne (Nat.ne_of_lt hx) ..) hid

/-- A manager may enroll a mini-service that holds on to no more than what comes before it. -/
theorem fits_enrolled {m : K.Mini} (hid : id < e.size) (hm : B.miniRefs m ⊆ below e.owner id) :
    Fits B (Function.update e.owner e.size (some id)) e.size (.mini m) :=
  ⟨id, hid, Function.update_self .., hm.trans (below_subset_update (Nat.le_of_lt hid))⟩

theorem fits_joined {s : K.Service} (h : B.Keeps (below e.owner e.size) ∅ s) :
    Fits B (Function.update e.owner e.size none) e.size (.service s) :=
  ⟨Function.update_self .., h.refs.trans (below_subset_update (Nat.le_refl _)),
    h.minis.trans (Set.empty_subset _)⟩

def cellOf (step : Registry.Step (Factory K)) (product : Product K) : Cell K where
  name := step.name
  inner := .service product.service
  rotates := product.rotates
  attached := true

def join (e : Estate B) (step : Registry.Step (Factory K)) (product : Product K)
    (h : B.Keeps (below e.owner e.size) ∅ product.service) : Estate B :=
  let added := e.add (cellOf step product) none (fits_joined h)
  { world := Fleet.join step product e.world
    owner := added.owner
    owner_of_le := added.owner_of_le
    fits := added.fits
    members := fun m hm => by
      rcases List.mem_append.1 hm with hm | hm
      · exact added.members m hm
      · obtain rfl := List.mem_singleton.1 hm
        refine ⟨?_, Function.update_self ..⟩
        show e.size < (e.world.addCell (cellOf step product)).cells.size
        rw [World.addCell, Array.size_push]
        exact Nat.lt_succ_self _ }

theorem later_join (e : Estate B) (step : Registry.Step (Factory K)) (product : Product K)
    (h : B.Keeps (below e.owner e.size) ∅ product.service) : e.Later (e.join step product h) :=
  ⟨(e.later_add (cellOf step product) none (fits_joined h)).size,
    (e.later_add (cellOf step product) none (fits_joined h)).owner⟩

theorem size_lt_join (e : Estate B) (step : Registry.Step (Factory K)) (product : Product K)
    (h : B.Keeps (below e.owner e.size) ∅ product.service) :
    e.size < (e.join step product h).size := by
  show e.size < (e.world.addCell (cellOf step product)).cells.size
  rw [World.addCell, Array.size_push]
  exact Nat.lt_succ_self _

end Estate

end Steward
