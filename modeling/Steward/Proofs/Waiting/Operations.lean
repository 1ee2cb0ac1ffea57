import Steward.Proofs.Cell.Request
import Steward.Proofs.Waiting.Estate
/-!
Operations on cells wait for locks in their order only. Each of them has given back in the end all
locks that it took, whatever hooks do that keep to their bounds.
-/
namespace Steward

open Steward.Action

variable {K : Kit} {B : Bounds K} {α β : Type} {e e' : Estate B} {held held' held'' : List CellId}
  {id : CellId}

/-- The rules for tasks that have certain locks: they wait only for cells that come before all of
these, and give up only what they have. -/
def wary (B : Bounds K) : Regime K (Estate B) (List CellId) where
  world := Estate.world
  later := Estate.Later
  changes held e held' e' := held' = held ∧ e.Later e'
  invokes _ _ _ := True
  takes held id e := e.IsFree held id
  gives held id _ := id ∈ held
  take held id := id :: held
  give held id := held.erase id
  later_refl := .refl
  later_trans := .trans
  later_of_changes h := h.2
  changes_refl _ e := ⟨rfl, .refl e⟩

@[simp] theorem world_wary (e : Estate B) : (wary B).world e = e.world := rfl

def Having (held : List CellId) (post : α → Estate B → Prop) (held' : List CellId) (a : α)
    (e : Estate B) : Prop := held' = held ∧ post a e

section Effects

variable {f : World K → World K} {next : Unit → Action K β} {g : α → Action K β}
  {post : β → Estate B → Prop} {mid : α → Estate B → Prop}

theorem follows_pure {a : β} (h : ∀ e', e.Later e' → post a e') :
    (wary B).Follows (pure a) (Having held post) held e :=
  .pure fun e' he => ⟨rfl, h e' he⟩

theorem follows_seq {p : Action K α} (h : (wary B).Follows p (Having held' mid) held e)
    (hnext : ∀ a e', e.Later e' → mid a e' →
      (wary B).Follows (g a) (Having held'' post) held' e') :
    (wary B).Follows (p >>= g) (Having held'' post) held e :=
  .seq h fun _ a e' he ha => ha.1 ▸ hnext a e' he ha.2

theorem follows_adjust (h : ∀ w : World K, w.KeepsInners (f w))
    (hnext : ∀ e', e.Later e' → (wary B).Follows (next ()) (Having held' post) held e') :
    (wary B).Follows (Action.modify f >>= next) (Having held' post) held e :=
  .modify fun e₁ he₁ => ⟨held, e₁.adjust _ (h _), rfl, ⟨rfl, e₁.later_adjust _ _⟩,
    hnext _ (he₁.trans (e₁.later_adjust _ _))⟩

theorem follows_getAdjust {f : World K → α} {change : World K → World K}
    (h : ∀ w : World K, w.KeepsInners (change w))
    (hnext : ∀ a e', e.Later e' → (wary B).Follows (g a) (Having held' post) held e') :
    (wary B).Follows (Action.getModify f change >>= g) (Having held' post) held e :=
  .getModify fun e₁ he₁ => ⟨held, e₁.adjust _ (h _), rfl, ⟨rfl, e₁.later_adjust _ _⟩,
    hnext _ _ (he₁.trans (e₁.later_adjust _ _))⟩

theorem follows_report {notice : Notice}
    (hnext : ∀ e', e.Later e' → (wary B).Follows (next ()) (Having held' post) held e') :
    (wary B).Follows (Action.report notice >>= next) (Having held' post) held e :=
  follows_adjust (fun w => .report (.refl w) notice) hnext

theorem follows_invoke {what : Invocation}
    (hnext : ∀ e', e.Later e' → (wary B).Follows (next ()) (Having held' post) held e') :
    (wary B).Follows (Action.invoke what (fun _ => ()) >>= next) (Having held' post) held e :=
  .invoke fun e₁ he₁ => ⟨trivial, hnext e₁ he₁⟩

theorem follows_acquire {access : Access} (hfree : e.IsFree held id)
    (hnext : ∀ e', e.Later e' → e'.IsAtWork (id :: held) id →
      (wary B).Follows (next ()) (Having held' post) (id :: held) e') :
    (wary B).Follows (Action.acquire id access >>= next) (Having held' post) held e :=
  .acquire fun e₁ he₁ => ⟨hfree.later he₁, hnext e₁ he₁ (hfree.later he₁).isAtWork⟩

theorem follows_release
    (hnext : ∀ e', e.Later e' → (wary B).Follows (next ()) (Having held' post) held e') :
    (wary B).Follows (Action.release id >>= next) (Having held' post) (id :: held) e := by
  refine .release fun e₁ he₁ => ⟨List.mem_cons_self, ?_⟩
  show (wary B).Follows (next ()) _ ((id :: held).erase id) e₁
  rw [List.erase_cons_head]
  exact hnext e₁ he₁

end Effects

abbrev Tidy (B : Bounds K) (p : Action K α) (held : List CellId) (e : Estate B) : Prop :=
  (wary B).Follows p (Having held fun _ _ => True) held e

theorem tidy_pure {a : α} : Tidy B (pure a) held e := follows_pure fun _ _ => trivial

theorem tidy_note (line : String) : Tidy B (Action.note line) held e :=
  .of_bind_pure (follows_adjust (fun w => .note (.refl w) line) fun _ _ => tidy_pure)

theorem tidy_report (notice : Notice) : Tidy B (Action.report notice) held e :=
  .of_bind_pure (follows_report fun _ _ => tidy_pure)

theorem tidy_get (f : World K → α) : Tidy B (Action.get f) held e :=
  .of_bind_pure (.get fun _ _ => tidy_pure)

theorem tidy_release : (wary B).Follows (Action.release id) (Having held fun _ _ => True)
    (id :: held) e := .of_bind_pure (follows_release fun _ _ => tidy_pure)

theorem follows_reading {f : Option (Cell K) → α} {post : α → Estate B → Prop}
    (hfree : e.IsFree held id)
    (hpost : ∀ e₁ e₂ : Estate B, e.Later e₁ → e₁.Later e₂ → post (f (e₁.world.cell? id)) e₂) :
    (wary B).Follows (reading id f) (Having held post) held e := by
  refine follows_acquire hfree fun e₁ he₁ _ => .get fun e₂ he₂ => ?_
  refine follows_release fun e₃ he₃ => follows_pure fun e₄ he₄ => ?_
  exact hpost e₂ e₄ (he₁.trans he₂) (he₃.trans he₄)

theorem tidy_reading {f : Option (Cell K) → α} (hfree : e.IsFree held id) :
    Tidy B (reading id f) held e := follows_reading hfree fun _ _ _ _ => trivial

namespace Cell

theorem tidy_carry (call : Hook.Call)
    (hfree : ∀ cell, call = .statusOf cell → e.IsFree held cell) :
    Tidy B (carry call) held e := by
  cases call with
  | note line => exact tidy_note line
  | rest millis => exact .of_bind_pure (.rest tidy_pure)
  | statusOf cell =>
    show Tidy B (status cell) held e
    exact tidy_reading (hfree cell rfl)
  | clock => exact tidy_get _

theorem follows_hook {refs : Set CellId} {hook : Hook α} {post : α → Prop}
    (hfree : ∀ cell ∈ refs, e.IsFree held cell) (h : hook.Asks refs post) :
    (wary B).Follows (hook.interpret carry) (Having held fun a _ => post a) held e := by
  induction hook generalizing e with
  | done a => exact follows_pure fun _ _ => h
  | call call next ih =>
    refine follows_seq (tidy_carry call fun cell hcell => hfree cell (h.1 cell hcell))
      fun a e₁ he₁ _ => ?_
    exact ih a (fun cell hcell => (hfree cell hcell).later he₁) (h.2 a)

theorem tidy_putBack {inner : Inner K}
    (hfits : ∀ e', e.Later e' → Fits B e'.owner id inner) :
    Tidy B (putBack id inner) held e :=
  .of_bind_pure (.modify fun e₁ he₁ => ⟨held, e₁.replace id inner (hfits e₁ he₁), rfl,
    ⟨rfl, e₁.later_replace _ _ _⟩, tidy_pure⟩)

theorem fits_later {inner : Inner K} (h : Fits B e.owner id inner) (hid : id < e.size)
    (he : e.Later e') : Fits B e'.owner id inner :=
  Estate.fits_of_later e.owner_of_le he.owner hid h

/-- At a mini-service a task may wait for whatever the mini-service holds on to, and put back what
holds on to no more. -/
theorem tidy_onMini {what : Invocation} {p : K.Mini → Action K α} {q : Action K α}
    (hwork : e.IsAtWork held id)
    (hp : ∀ m refs e', B.miniRefs m ⊆ refs → (∀ cell ∈ refs, e'.IsFree held cell) →
      (∀ m' e'', B.miniRefs m' ⊆ refs → e'.Later e'' → Fits B e''.owner id (.mini m')) →
      Tidy B (p m) held e')
    (hq : ∀ e', Tidy B q held e') :
    Tidy B (do
      match ← inner? id with
      | some (.mini m) =>
        invoke what fun _ => ()
        p m
      | _ => q) held e := by
  refine .get fun e₁ he₁ => ?_
  split
  · rename_i m hinner
    have hwork₁ := hwork.later he₁
    obtain ⟨manager, hlt, hid, hrefs⟩ := e₁.fits id (.mini m) hinner
    refine follows_invoke fun e₂ he₂ => hp m _ e₂ hrefs (fun cell hcell => ?_) ?_
    · exact (hwork₁.isFree_below_manager hid hlt hcell).later he₂
    · intro m' e₃ hm' he₃
      have hfits : Fits B e₁.owner id (.mini m') := ⟨manager, hlt, hid, hm'⟩
      exact fits_later hfits hwork₁.lt_size (he₂.trans he₃)
  · exact hq e₁

theorem tidy_passMini (scope : Scope) (hwork : e.IsAtWork held id) :
    Tidy B (passMini id scope) held e := by
  refine tidy_onMini hwork (fun m refs e₁ hm hfree hfits => ?_) fun _ => tidy_pure
  refine follows_seq (follows_hook hfree (B.miniPass scope hm)) fun r e₂ he₂ hr => ?_
  refine follows_seq (tidy_putBack fun e₃ he₃ => ?_) fun _ _ _ _ => tidy_pure
  exact hfits r.1 e₃ hr (he₂.trans he₃)

theorem tidy_tearMini (hwork : e.IsAtWork held id) : Tidy B (tearMini id) held e := by
  refine tidy_onMini hwork (fun m refs e₁ hm hfree hfits => ?_) fun _ => tidy_pure
  refine follows_seq (follows_hook hfree (B.miniDestroy hm)) fun r e₂ he₂ hr => ?_
  refine follows_seq (tidy_putBack fun e₃ he₃ => ?_) fun _ _ _ _ => tidy_pure
  exact hfits r.1 e₃ hr (he₂.trans he₃)

theorem tidy_buildWith {pass : CellId → Scope → Action K (Scope × Ending)} {token : Token}
    (hpass : ∀ scope e', e'.IsAtWork (id :: held) id →
      Tidy B (pass id scope) (id :: held) e') (hfree : e.IsFree held id) :
    Tidy B (buildWith pass id token) held e := by
  refine .get fun e₁ he₁ => follows_acquire (hfree.later he₁) fun e₂ he₂ hwork => ?_
  refine .get fun e₃ he₃ => follows_getAdjust (fun w => ?_) fun name e₄ he₄ => ?_
  · exact World.keepsInners_modifyCell w id fun _ => rfl
  refine follows_seq (hpass _ e₄ (hwork.later (he₃.trans he₄))) fun ⟨asked, ending⟩ e₅ _ _ => ?_
  refine .get fun e₆ _ => follows_adjust (fun w => keepsInners_endBuild _ _ _ _ w) fun e₇ _ => ?_
  refine follows_release fun e₈ _ => follows_adjust (fun w => keepsInners_armAfter _ w) ?_
  exact fun e₉ _ => .ite (fun _ => tidy_pure) fun _ => tidy_pure

theorem tidy_destroyWith {tear : CellId → Action K Ending}
    (htear : ∀ e', e'.IsAtWork (id :: held) id → Tidy B (tear id) (id :: held) e')
    (hfree : e.IsFree held id) : Tidy B (destroyWith tear id) held e := by
  refine follows_adjust (fun w => World.keepsInners_cancelTimer w id) fun e₁ he₁ => ?_
  refine follows_acquire (hfree.later he₁) fun e₂ he₂ hwork => .get fun e₃ he₃ => ?_
  have hwork₃ := hwork.later he₃
  obtain ⟨inner, hinner⟩ := Estate.exists_inner hwork₃.lt_size
  obtain ⟨c, hc, -⟩ := Option.map_eq_some_iff.1 hinner
  have hworld : (wary B).world e₃ = e₃.world := rfl
  rw [hworld, hc]
  refine .ite (fun _ => follows_report fun e₄ _ => tidy_release) fun _ => ?_
  refine follows_adjust (fun w => ?_) fun e₄ he₄ => ?_
  · exact World.keepsInners_modifyCell w id fun _ => rfl
  refine follows_seq (htear e₄ (hwork₃.later he₄)) fun ending e₅ _ _ => ?_
  exact follows_adjust (fun w => keepsInners_endDestroy ending w) fun e₆ _ => tidy_release

theorem tidy_buildMini (token : Token) (hfree : e.IsFree held id) :
    Tidy B (buildMini id token) held e :=
  tidy_buildWith (fun scope _ hwork => tidy_passMini scope hwork) hfree

theorem tidy_destroyMini (hfree : e.IsFree held id) : Tidy B (destroyMini id) held e :=
  tidy_destroyWith (fun _ hwork => tidy_tearMini hwork) hfree

/-- A hook of a component that keeps to its bounds waits only for components before its own and for
its own mini-services. -/
theorem follows_poolHook {refs minis : Set CellId} {hook : PoolHook K.Mini α}
    {post : Set CellId → α → Prop} (hwork : e.IsAtWork held id) (hid : e.owner id = none)
    (hrefs : refs ⊆ below e.owner id) (hminis : minis ⊆ minisOf e.owner id)
    (h : hook.Minds B.miniRefs refs minis post) :
    (wary B).Follows (hook.interpret carryPool)
      (Having held fun a e' => ∃ minis ⊆ minisOf e'.owner id, post minis a) held e := by
  induction hook generalizing e minis with
  | done a => exact follows_pure fun e' he => ⟨minis, hminis.trans he.minisOf_subset, h⟩
  | call call next ih =>
    have hnext {e' : Estate B} (he : e.Later e') (minis' : Set CellId)
        (hminis' : minis' ⊆ minisOf e'.owner id) (a : call.Answer)
        (ha : PoolHook.Minds B.miniRefs refs minis' (next a) post) :
        (wary B).Follows ((next a).interpret carryPool)
          (Having held fun a e' => ∃ minis ⊆ minisOf e'.owner id, post minis a) held e' := by
      have hbelow := he.below_subset (Nat.le_of_lt hwork.lt_size)
      exact ih a (hwork.later he) ((he.owner id hwork.lt_size).trans hid) (hrefs.trans hbelow)
        hminis' ha
    have hsame {e' : Estate B} (he : e.Later e') : minis ⊆ minisOf e'.owner id :=
      hminis.trans he.minisOf_subset
    cases call with
    | plain call =>
      refine follows_seq (tidy_carry call fun cell hcell => ?_) fun a e₁ he₁ _ =>
        hnext he₁ minis (hsame he₁) a (h.2 a)
      rcases h.1 cell hcell with hcell | hcell
      · exact hwork.isFree_below hid (hrefs hcell)
      · exact hwork.isFree_mini hid (hminis hcell)
    | report notice =>
      exact follows_seq (tidy_report notice) fun a e₁ he₁ _ => hnext he₁ minis (hsame he₁) a h
    | enroll name mini =>
      refine .getModify fun e₁ he₁ => ?_
      have hbelow := he₁.below_subset (Nat.le_of_lt hwork.lt_size)
      have hfits := Estate.fits_enrolled (hwork.later he₁).lt_size (h.1.trans (hrefs.trans hbelow))
      let added := e₁.add { name, inner := .mini mini } (some id) hfits
      have he₂ : e₁.Later added := e₁.later_add _ _ hfits
      refine ⟨held, added, rfl, ⟨rfl, he₂⟩, ?_⟩
      refine hnext (he₁.trans he₂) (insert e₁.size minis) ?_ e₁.size (h.2 _)
      rw [Set.insert_subset_iff]
      exact ⟨Function.update_self .., hsame (he₁.trans he₂)⟩
    | build cell token =>
      have hfree : e.IsFree held cell := hwork.isFree_mini hid (hminis h.1)
      have hcarry : Tidy B (carryPool (.build cell token)) held e := by
        refine .get fun e₁ he₁ => .ite (fun _ => ?_) fun _ => tidy_pure
        exact tidy_buildMini token (hfree.later he₁)
      exact follows_seq hcarry fun a e₁ he₁ _ => hnext he₁ minis (hsame he₁) a (h.2 a)
    | destroy cell =>
      have hfree : e.IsFree held cell := hwork.isFree_mini hid (hminis h.1)
      have hcarry : Tidy B (carryPool (.destroy cell)) held e := by
        refine .get fun e₁ he₁ => .ite (fun _ => ?_) fun _ => tidy_pure
        exact tidy_destroyMini (hfree.later he₁)
      exact follows_seq hcarry fun a e₁ he₁ _ => hnext he₁ minis (hsame he₁) a h.2

/-- At a component a task may run hooks that keep to its bounds, and put back what holds on to no
more. -/
theorem tidy_onService {what : Invocation} {p : K.Service → Action K α} {q : Action K α}
    (hwork : e.IsAtWork held id)
    (hp : ∀ s e', e'.IsAtWork held id → e'.owner id = none →
      B.Keeps (below e'.owner id) (minisOf e'.owner id) s → Tidy B (p s) held e')
    (hq : ∀ e', e'.IsAtWork held id → Tidy B q held e') :
    Tidy B (do
      match ← inner? id with
      | some (.service s) =>
        invoke what fun _ => ()
        p s
      | _ => q) held e := by
  refine .get fun e₁ he₁ => ?_
  have hwork₁ := hwork.later he₁
  split
  · rename_i s hinner
    refine follows_invoke fun e₂ he₂ => ?_
    obtain ⟨hid, hkeeps⟩ := fits_later (e₁.fits id (.service s) hinner) hwork₁.lt_size he₂
    exact hp s e₂ (hwork₁.later he₂) hid hkeeps
  · exact hq e₁ hwork₁

/-- A component is put back that holds on to no more than before, but for mini-services that were
enrolled. -/
theorem fits_putBack {refs minis : Set CellId} {s : K.Service} {e₂ : Estate B}
    (hwork : e.IsAtWork held id) (hid : e.owner id = none) (hrefs : refs ⊆ below e.owner id)
    (he₁ : e.Later e') (hminis : minis ⊆ minisOf e'.owner id) (he₂ : e'.Later e₂)
    (h : B.Keeps refs minis s) : Fits B e₂.owner id (.service s) := by
  have he := he₁.trans he₂
  have hbelow := he.below_subset (Nat.le_of_lt hwork.lt_size)
  exact ⟨(he.owner id hwork.lt_size).trans hid, h.refs.trans (hrefs.trans hbelow),
    h.minis.trans (hminis.trans he₂.minisOf_subset)⟩

theorem tidy_pass (scope : Scope) (hwork : e.IsAtWork held id) :
    Tidy B (pass id scope) held e := by
  refine tidy_onService hwork (fun s e₁ hwork₁ hid hs => ?_)
    fun e₁ hwork₁ => tidy_passMini scope hwork₁
  refine follows_seq (follows_poolHook hwork₁ hid (Set.Subset.refl _) (Set.Subset.refl _)
    (B.pass scope hs)) fun r e₂ he₂ hr => ?_
  obtain ⟨minis, hminis, hkeeps⟩ := hr
  refine follows_seq (tidy_putBack fun e₃ he₃ => ?_) fun _ _ _ _ => tidy_pure
  exact fits_putBack hwork₁ hid (Set.Subset.refl _) he₂ hminis he₃ hkeeps

theorem tidy_tear (hwork : e.IsAtWork held id) : Tidy B (tear id) held e := by
  refine tidy_onService hwork (fun s e₁ hwork₁ hid hs => ?_)
    fun e₁ hwork₁ => tidy_tearMini hwork₁
  refine follows_seq (follows_poolHook hwork₁ hid (Set.Subset.refl _) (Set.Subset.refl _)
    (B.destroy hs)) fun r e₂ he₂ hr => ?_
  obtain ⟨minis, hminis, hkeeps⟩ := hr
  refine follows_seq (tidy_putBack fun e₃ he₃ => ?_) fun _ _ _ _ => tidy_pure
  exact fits_putBack hwork₁ hid (Set.Subset.refl _) he₂ hminis he₃ hkeeps

theorem tidy_build (token : Token) (hfree : e.IsFree held id) :
    Tidy B (build id token) held e :=
  tidy_buildWith (fun scope _ hwork => tidy_pass scope hwork) hfree

theorem tidy_destroy (hfree : e.IsFree held id) : Tidy B (destroy id) held e :=
  tidy_destroyWith (fun _ hwork => tidy_tear hwork) hfree

theorem tidy_setStatus (status : Status) (hfree : e.IsFree held id) :
    Tidy B (setStatus id status) held e :=
  follows_acquire hfree fun _ _ _ =>
    follows_adjust (fun w => keepsInners_assign status w) fun _ _ => tidy_release

/-- A call that is admitted has the lock, and may wait for whatever its component holds on to. -/
theorem follows_enter (method : String) (hfree : e.IsFree held id) :
    (wary B).Follows (enter id method) (fun held' r e' => match r with
      | .ok c => held' = id :: held ∧ ∀ x ∈ B.ofInner c.inner, e'.IsFree (id :: held) x
      | .error _ => held' = held) held e := by
  refine .acquire fun e₁ he₁ => ⟨hfree.later he₁, .get fun e₂ he₂ => ?_⟩
  have hwork : e₂.IsAtWork (id :: held) id := (hfree.later he₁).isAtWork.later he₂
  have hrelease {r : Except Refusal (Cell K)} {fault : Refusal} (hr : r = .error fault) :
      (wary B).Follows (do
        release id
        return r) (fun held' r e' => match r with
          | .ok c => held' = id :: held ∧ ∀ x ∈ B.ofInner c.inner, e'.IsFree (id :: held) x
          | .error _ => held' = held) (id :: held) e₂ := by
    subst hr
    refine .release fun e₃ _ => ⟨List.mem_cons_self, .pure fun _ _ => ?_⟩
    show (id :: held).erase id = held
    exact List.erase_cons_head ..
  split
  · exact hrelease rfl
  · rename_i c hc
    split
    · refine .pure fun e₃ he₃ => ⟨rfl, fun x hx => ?_⟩
      have hinner : (e₂.world.cell? id).map (·.inner) = some c.inner := congrArg _ hc
      exact (hwork.isFree_of_fits (e₂.fits id c.inner hinner) x hx).later he₃
    · exact hrelease rfl

theorem tidy_attend {ρ : Type} {method : String} {body : Cell K → Hook ρ}
    (hbody : ∀ c, (body c).Asks (B.ofInner c.inner) fun _ => True) (hfree : e.IsFree held id) :
    Tidy B (attend id method body) held e := by
  refine .seq (follows_enter method hfree) fun held' r e₁ _ hr => ?_
  cases r with
  | error refusal =>
    obtain rfl : held' = held := hr
    exact tidy_pure
  | ok c =>
    obtain ⟨rfl, hwaits⟩ := hr
    exact follows_seq (follows_hook hwaits (hbody c)) fun _ _ _ _ =>
      follows_release fun _ _ => tidy_pure

end Cell

namespace Rotation

open Cell

theorem follows_attempt {refs minis : Set CellId} {s : K.Service} (name : String)
    (policy : Policy) (retries attempts : Nat)
    (hfree : ∀ cell ∈ refs ∪ minis, e.IsFree held cell) (h : B.Keeps refs minis s) :
    (wary B).Follows (attempt name policy retries attempts s)
      (Having held fun r _ => B.Keeps refs minis r.1) held e := by
  induction retries generalizing e attempts s with
  | zero =>
    unfold attempt
    refine .ite (fun _ => follows_pure fun _ _ => h) fun _ => ?_
    refine follows_seq (follows_hook hfree (B.rotate h)) fun r e₁ he₁ hs' => ?_
    obtain ⟨s', answer⟩ := r
    cases answer <;> exact follows_pure fun _ _ => hs'
  | succ retries ih =>
    unfold attempt
    refine .ite (fun _ => follows_pure fun _ _ => h) fun _ => ?_
    refine follows_seq (follows_hook hfree (B.rotate h)) fun r e₁ he₁ hs' => ?_
    obtain ⟨s', answer⟩ := r
    cases answer with
    | granted credential => exact follows_pure fun _ _ => hs'
    | failed message => exact follows_pure fun _ _ => hs'
    | panicked => exact follows_pure fun _ _ => hs'
    | transient message =>
      dsimp only
      split
      · exact follows_pure fun _ _ => hs'
      · refine follows_report fun e₂ he₂ => .rest ?_
        exact ih _ (fun cell hcell => (hfree cell hcell).later (he₁.trans he₂)) hs'

theorem tidy_tickHeld {s : K.Service} (name : String) (hwork : e.IsAtWork held id)
    (hid : e.owner id = none) (h : B.Keeps (below e.owner id) (minisOf e.owner id) s) :
    Tidy B (tickHeld id name s) held e := by
  have hfree : ∀ cell ∈ below e.owner id ∪ minisOf e.owner id, e.IsFree held cell := by
    rintro cell (hcell | hcell)
    · exact hwork.isFree_below hid hcell
    · exact hwork.isFree_mini hid hcell
  have hfits {s' : K.Service} {e₁ e₂ : Estate B} (he₁ : e.Later e₁) (he₂ : e₁.Later e₂)
      (hs' : B.Keeps (below e.owner id) (minisOf e.owner id) s') :
      Fits B e₂.owner id (.service s') := by
    have hstill : Fits B e.owner id (.service s') := ⟨hid, hs'⟩
    exact fits_later hstill hwork.lt_size (he₁.trans he₂)
  refine follows_seq (follows_hook hfree (B.storeStatus h)) fun ⟨s', store?⟩ e₁ he₁ hs' => ?_
  cases store? with
  | none =>
    exact follows_seq (tidy_putBack fun e₂ he₂ => hfits he₁ he₂ hs') fun _ _ _ _ => tidy_pure
  | some store =>
    refine .ite (fun _ => ?_) fun _ => ?_
    · refine follows_seq (tidy_putBack fun e₂ he₂ => hfits he₁ he₂ hs') fun _ _ _ _ => ?_
      exact follows_adjust (fun w => keepsInners_adopt store w) fun _ _ => tidy_pure
    · refine follows_seq (follows_attempt name _ _ _
        (fun cell hcell => (hfree cell hcell).later he₁) hs') fun ⟨s'', finish⟩ e₂ he₂ hs'' => ?_
      have hkeep : B.Keeps (below e.owner id) (minisOf e.owner id) (finish.keep s'') := by
        cases finish with
        | granted credential attempts => exact B.withSlot _ hs''
        | _ => exact hs''
      refine follows_seq (tidy_putBack fun e₃ he₃ => hfits (he₁.trans he₂) he₃ hkeep)
        fun _ _ _ _ => ?_
      exact follows_adjust (fun w => keepsInners_settle finish name w) fun _ _ => tidy_pure

theorem tidy_tick (hfree : e.IsFree held id) : Tidy B (tick id) held e := by
  refine follows_acquire hfree fun e₁ he₁ hwork => .get fun e₂ he₂ => ?_
  have hwork₂ := hwork.later he₂
  split
  · rename_i name s hfound
    obtain ⟨c, hc, hs, -⟩ := of_undestroyed? hfound
    have hinner : (e₂.world.cell? id).map (·.inner) = some (.service s) := by
      show (((wary B).world e₂).cell? id).map _ = _
      rw [hc, Option.map_some, hs]
    obtain ⟨hid, hkeeps⟩ := e₂.fits id (.service s) hinner
    exact follows_seq (tidy_tickHeld name hwork₂ hid hkeeps) fun _ _ _ _ =>
      follows_release fun _ _ => tidy_pure
  · exact follows_release fun _ _ => tidy_pure

theorem tidy_round (hfree : e.IsFree held id) : Tidy B (round id) held e := by
  refine follows_acquire hfree fun e₁ he₁ _ => .get fun e₂ he₂ => follows_release fun e₃ he₃ => ?_
  have hfree₃ := hfree.later (he₁.trans (he₂.trans he₃))
  split
  · exact tidy_pure
  · refine follows_report fun e₄ he₄ => .restUnlessCancelled fun isCancelled => ?_
    refine .ite (fun _ => follows_report fun _ _ => tidy_pure) fun _ => ?_
    refine follows_seq (tidy_tick (hfree₃.later he₄)) fun result e₅ _ _ => ?_
    cases result with
    | cancelled => exact follows_report fun _ _ => tidy_pure
    | _ => exact tidy_pure

end Rotation

namespace Cell

/-- The body of a call waits for nothing but what its component holds on to. -/
def Request.IsModest {ρ : Type} (B : Bounds K) : Request K ρ → Prop
  | .call _ body => ∀ c, (body c).Asks (B.ofInner c.inner) fun _ => True
  | _ => True

theorem tidy_request {ρ : Type} {r : Request K ρ} (hr : r.IsModest B)
    (hfree : e.IsFree held id) : Tidy B (r.run id) held e := by
  cases r with
  | build token => exact tidy_build token hfree
  | destroy => exact tidy_destroy hfree
  | setStatus status => exact tidy_setStatus status hfree
  | rotate => exact Rotation.tidy_tick hfree
  | call method body => exact tidy_attend hr hfree
  | status =>
    show Tidy B (status id) held e
    exact tidy_reading hfree
  | look =>
    show Tidy B (look id) held e
    exact tidy_reading hfree

end Cell

end Steward
