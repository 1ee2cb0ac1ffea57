import Steward.Proofs.Waiting.Acyclic
/-!
The worlds that running fleets come to. A fleet is started where nothing is yet and then asked for
one thing after the other, while others do what they like but neither change who belongs to it nor
bring anything into a cell that does not fit there.
-/
namespace Steward

open Steward.Action

variable {K : Kit}

namespace Action

variable {Ω σ α : Type} {R : Regime K Ω σ} {others : World K → World K → Prop} {p q : Action K α}
  {v w : World K} {calls : Calls K} {post : σ → α → Ω → Prop} {s : σ} {o : Ω}

/-- Over a run of a program that follows rules, what there is only changes as time goes by, and what
is left of the program follows the rules again. -/
theorem Runs.follows (run : Runs others p v calls q w)
    (hothers : ∀ o w, others (R.world o) w → ∃ o', R.world o' = w ∧ R.later o o')
    (h : R.Follows p post s o) (hv : R.world o = v) :
    ∃ s' o', R.world o' = w ∧ R.later o o' ∧ R.Follows q post s' o' := by
  induction run generalizing s o with
  | here p w => exact ⟨s, o, hv, R.later_refl o, h⟩
  | other hw _ ih =>
    subst hv
    obtain ⟨o', hw', hlater⟩ := hothers o _ hw
    obtain ⟨s'', o'', hworld, hlater', hq⟩ := ih (h.later hlater) hw'
    exact ⟨s'', o'', hworld, R.later_trans hlater hlater', hq⟩
  | update _ ih =>
    subst hv
    obtain ⟨s', o', hworld, hchanges, hnext⟩ := h o (R.later_refl o)
    obtain ⟨s'', o'', hworld', hlater, hq⟩ := ih hnext hworld
    exact ⟨s'', o'', hworld', R.later_trans (R.later_of_changes hchanges) hlater, hq⟩
  | invoke _ ih =>
    subst hv
    exact ih (h o (R.later_refl o)).2 rfl
  | acquire _ ih => exact ih (h o (R.later_refl o)).2 hv
  | release _ ih => exact ih (h o (R.later_refl o)).2 hv
  | rest _ ih => exact ih (h o (R.later_refl o)) hv
  | restUnlessCancelled isCancelled _ ih => exact ih (h o (R.later_refl o) isCancelled) hv

end Action

namespace Fleet

variable {B : Bounds K} {registry : Registry K} {config : Config} {v w : World K}

structure Respects (B : Bounds K) (spared : CellId → Prop) (v w : World K) : Prop where
  keeps : World.Keeps spared v w
  estate : ∀ e : Estate B, e.world = v → ∃ e' : Estate B, e'.world = w ∧ e.Later e'

/-- A world that a fleet comes to which was started where nothing was yet. Requests may be carried
out in part only. -/
inductive Reached (B : Bounds K) (registry : Registry K) (config : Config) : World K → Prop
  | start {v w : World K} {calls : Calls K} (hcells : v.cells = #[])
      (hmembers : v.roster.members = [])
      (run : Runs (Respects B fun _ => True) (start registry config) v calls (.done (.ok ())) w) :
      Reached B registry config w
  | request {v w : World K} {calls : Calls K} (r : Request K) {q : Action K r.Answer}
      (h : Reached B registry config v) (hr : ∀ d, r = .register d → d.IsConfined B)
      (run : Runs (Respects B fun _ => False) r.action v calls q w) : Reached B registry config w

variable {α : Type} {p q : Action K α} {calls : Calls K} {spared : CellId → Prop}

theorem exists_estate_of_runs (run : Runs (Respects B spared) p v calls q w) {e : Estate B}
    (h : Tidy B p [] e) (hv : e.world = v) : ∃ e' : Estate B, e'.world = w := by
  obtain ⟨_, e', hw, -, -⟩ := run.follows (fun e w hw => hw.estate e rfl) h hv
  exact ⟨e', hw⟩

theorem Reached.exists_estate (h : Reached B registry config w) (hnames : registry.names.Nodup)
    (hconfined : ∀ d ∈ registry.descriptors, d.IsConfined B) : ∃ e : Estate B, e.world = w := by
  induction h with
  | start hcells hmembers run =>
    exact exists_estate_of_runs run (tidy_start hnames hconfined) (e := .empty B _ hcells hmembers)
      rfl
  | @request _ _ _ r _ _ hr run ih =>
    obtain ⟨e, he⟩ := ih
    have hr' : (Errand.request r : Errand K Unit).IsConfined B := by
      cases r with
      | register d => exact hr d rfl
      | _ => trivial
    exact exists_estate_of_runs run (Errand.tidy_action hr') he

theorem Reached.stems (h : Reached B registry config w) (hnames : registry.names.Nodup) :
    Stems registry config w := by
  induction h with
  | start _ _ run => exact Founded.stems hnames ⟨_, _, run.weaken fun _ _ h => h.keeps⟩
  | request r _ _ run ih =>
    exact ih.advances (Attended.advances (.single ⟨r, _, _, run.weaken fun _ _ h => h.keeps⟩))

end Fleet

end Steward
