import Mathlib.Data.Set.Insert
import Steward.Fleet.Factory
/-!
Which components and mini-services hooks may wait for. A component holds on to others that its
factory has found, and a manager also to the mini-services that it has enrolled; a mini-service
holds on to no more components than its manager does. Hooks wait for nothing else.
-/
namespace Steward

variable {K : Kit} {μ α β : Type}

/-- A hook asks for the status of certain cells only, and its answer is as `post` says. -/
def Hook.Asks (refs : Set CellId) : Hook α → (α → Prop) → Prop
  | .done a, post => post a
  | .call call next, post =>
    (∀ cell, call = .statusOf cell → cell ∈ refs) ∧ ∀ a, Hook.Asks refs (next a) post

/-- A hook of a component that keeps mini-services in certain cells asks for the status of these
and of certain others only, and builds and destroys its own mini-services only. Its answer, with
the cells that it then keeps mini-services in, is as `post` says. -/
def PoolHook.Minds (miniRefs : μ → Set CellId) (refs : Set CellId) :
    (minis : Set CellId) → PoolHook μ α → (Set CellId → α → Prop) → Prop
  | minis, .done a, post => post minis a
  | minis, .call (.plain call) next, post =>
    (∀ cell, call = .statusOf cell → cell ∈ refs ∪ minis) ∧
      ∀ a, PoolHook.Minds miniRefs refs minis (next a) post
  | minis, .call (.report _) next, post =>
    PoolHook.Minds miniRefs refs minis (next ()) post
  | minis, .call (.enroll _ mini) next, post =>
    miniRefs mini ⊆ refs ∧
      ∀ cell, PoolHook.Minds miniRefs refs (insert cell minis) (next cell) post
  | minis, .call (.build cell _) next, post =>
    cell ∈ minis ∧ ∀ a, PoolHook.Minds miniRefs refs minis (next a) post
  | minis, .call (.destroy cell) next, post =>
    cell ∈ minis ∧ PoolHook.Minds miniRefs refs minis (next ()) post

section Hooks

variable {refs minis : Set CellId} {miniRefs : μ → Set CellId} {cell : CellId} {post : α → Prop}
  {poolPost : Set CellId → α → Prop}

namespace Hook

theorem asks_note {line : String} {next : Unit → Hook α} (h : (next ()).Asks refs post) :
    (note line >>= next).Asks refs post := ⟨nofun, fun _ => h⟩

theorem asks_rest {millis : Nat} {next : Unit → Hook α} (h : (next ()).Asks refs post) :
    (rest millis >>= next).Asks refs post := ⟨nofun, fun _ => h⟩

theorem asks_clock {next : Instant → Hook α} (h : ∀ now, (next now).Asks refs post) :
    (clock >>= next).Asks refs post := ⟨nofun, h⟩

theorem asks_statusOf {next : Status → Hook α} (hcell : cell ∈ refs)
    (h : ∀ status, (next status).Asks refs post) : (statusOf cell >>= next).Asks refs post := by
  refine ⟨fun other hother => ?_, h⟩
  obtain rfl := Call.statusOf.inj hother
  exact hcell

theorem Asks.bind {h : Hook α} {f : α → Hook β} {post : β → Prop}
    (hh : h.Asks refs fun a => (f a).Asks refs post) : Asks refs (h >>= f) post := by
  induction h with
  | done a => exact hh
  | call call next ih => exact ⟨hh.1, fun a => ih a (hh.2 a)⟩

theorem Asks.mono {h : Hook α} {post' : α → Prop} (hh : h.Asks refs post)
    (hpost : ∀ a, post a → post' a) : h.Asks refs post' := by
  induction h with
  | done a => exact hpost a hh
  | call call next ih => exact ⟨hh.1, fun a => ih a (hh.2 a)⟩

theorem Asks.widen {h : Hook α} {refs' : Set CellId} (hh : h.Asks refs post)
    (hrefs : refs ⊆ refs') : h.Asks refs' post := by
  induction h with
  | done a => exact hh
  | call call next ih =>
    exact ⟨fun cell hcell => hrefs (hh.1 cell hcell), fun a => ih a (hh.2 a)⟩

end Hook

namespace PoolHook

theorem minds_report {notice : Notice} {next : Unit → PoolHook μ α}
    (h : (next ()).Minds miniRefs refs minis poolPost) :
    (report notice >>= next).Minds miniRefs refs minis poolPost := h

theorem minds_enroll {name : String} {mini : μ} {next : CellId → PoolHook μ α}
    (hmini : miniRefs mini ⊆ refs)
    (h : ∀ cell, (next cell).Minds miniRefs refs (insert cell minis) poolPost) :
    (enroll name mini >>= next).Minds miniRefs refs minis poolPost := ⟨hmini, h⟩

theorem minds_build {token : Token} {next : Except Fault Report → PoolHook μ α}
    (hcell : cell ∈ minis) (h : ∀ r, (next r).Minds miniRefs refs minis poolPost) :
    (build cell token >>= next).Minds miniRefs refs minis poolPost := ⟨hcell, h⟩

theorem minds_destroy {next : Unit → PoolHook μ α} (hcell : cell ∈ minis)
    (h : (next ()).Minds miniRefs refs minis poolPost) :
    (destroy cell >>= next).Minds miniRefs refs minis poolPost := ⟨hcell, h⟩

theorem Minds.bind {h : PoolHook μ α} {f : α → PoolHook μ β} {post : Set CellId → β → Prop}
    (hh : h.Minds miniRefs refs minis fun minis a => (f a).Minds miniRefs refs minis post) :
    Minds miniRefs refs minis (h >>= f) post := by
  induction h generalizing minis with
  | done a => exact hh
  | call call next ih =>
    cases call with
    | plain call => exact ⟨hh.1, fun a => ih a (hh.2 a)⟩
    | report notice => exact ih () hh
    | enroll name mini => exact ⟨hh.1, fun cell => ih cell (hh.2 cell)⟩
    | build cell token => exact ⟨hh.1, fun a => ih a (hh.2 a)⟩
    | destroy cell => exact ⟨hh.1, ih () hh.2⟩

theorem Minds.mono {h : PoolHook μ α} {post : Set CellId → α → Prop}
    (hh : h.Minds miniRefs refs minis poolPost)
    (hpost : ∀ minis a, poolPost minis a → post minis a) : h.Minds miniRefs refs minis post := by
  induction h generalizing minis with
  | done a => exact hpost minis a hh
  | call call next ih =>
    cases call with
    | plain call => exact ⟨hh.1, fun a => ih a (hh.2 a)⟩
    | report notice => exact ih () hh
    | enroll name mini => exact ⟨hh.1, fun cell => ih cell (hh.2 cell)⟩
    | build cell token => exact ⟨hh.1, fun a => ih a (hh.2 a)⟩
    | destroy cell => exact ⟨hh.1, ih () hh.2⟩

theorem minds_ofHook {h : Hook α} (hh : h.Asks refs (poolPost minis)) :
    (ofHook h : PoolHook μ α).Minds miniRefs refs minis poolPost := by
  induction h with
  | done a => exact hh
  | call call next ih =>
    exact ⟨fun cell hcell => .inl (hh.1 cell hcell), fun a => ih a (hh.2 a)⟩

end PoolHook

end Hooks

structure Holdings (K : Kit) where
  /-- The components that a component may ask for their status. -/
  refs : K.Service → Set CellId
  /-- The mini-services that a manager keeps. -/
  minis : K.Service → Set CellId
  /-- The components that a mini-service may ask for their status. -/
  miniRefs : K.Mini → Set CellId

def Holdings.ofInner (H : Holdings K) : Inner K → Set CellId
  | .service s => H.refs s ∪ H.minis s
  | .mini m => H.miniRefs m

/-- A component holds on to no others than these, and keeps no other mini-services than these. -/
structure Holdings.Keeps (H : Holdings K) (refs minis : Set CellId) (s : K.Service) : Prop where
  refs : H.refs s ⊆ refs
  minis : H.minis s ⊆ minis

/-- No hook waits for anything that its component does not hold on to, and none gets hold of more,
but that a manager may enroll mini-services. -/
structure Bounds (K : Kit) extends Holdings K where
  check : ∀ {refs minis s}, toHoldings.Keeps refs minis s →
    (K.service.check s).Minds miniRefs refs minis fun minis' _ => toHoldings.Keeps refs minis' s
  verify : ∀ {refs minis s} (scope), toHoldings.Keeps refs minis s →
    (K.service.verify s scope).Minds miniRefs refs minis fun minis' r =>
      toHoldings.Keeps refs minis' r.1
  build : ∀ {refs minis s} (scope), toHoldings.Keeps refs minis s →
    (K.service.build s scope).Minds miniRefs refs minis fun minis' r =>
      toHoldings.Keeps refs minis' r.1
  destroy : ∀ {refs minis s}, toHoldings.Keeps refs minis s →
    (K.service.destroy s).Minds miniRefs refs minis fun minis' r =>
      toHoldings.Keeps refs minis' r.1
  pooled : ∀ {s entries}, K.pooled s = some entries → ∀ entry ∈ entries, entry.2 ∈ minis s
  withSlot : ∀ {refs minis s} (slot), toHoldings.Keeps refs minis s →
    toHoldings.Keeps refs minis (K.withSlot s slot)
  storeStatus : ∀ {refs minis s}, toHoldings.Keeps refs minis s →
    (K.storeStatus s).Asks (refs ∪ minis) fun r => toHoldings.Keeps refs minis r.1
  rotate : ∀ {refs minis s}, toHoldings.Keeps refs minis s →
    (K.rotate s).Asks (refs ∪ minis) fun r => toHoldings.Keeps refs minis r.1
  miniCheck : ∀ {refs m}, miniRefs m ⊆ refs → (K.mini.check m).Asks refs fun _ => True
  miniVerify : ∀ {refs m} (scope), miniRefs m ⊆ refs →
    (K.mini.verify m scope).Asks refs fun r => miniRefs r.1 ⊆ refs
  miniBuild : ∀ {refs m} (scope), miniRefs m ⊆ refs →
    (K.mini.build m scope).Asks refs fun r => miniRefs r.1 ⊆ refs
  miniDestroy : ∀ {refs m}, miniRefs m ⊆ refs →
    (K.mini.destroy m).Asks refs fun r => miniRefs r.1 ⊆ refs

namespace Bounds

variable {B : Bounds K} {refs minis : Set CellId} {s : K.Service} {m : K.Mini}

theorem pass (scope : Scope) (h : B.Keeps refs minis s) :
    (K.service.pass s scope).Minds B.miniRefs refs minis fun minis' r =>
      B.Keeps refs minis' r.1 := by
  refine PoolHook.Minds.bind ((B.check h).mono fun minis ending hs => ?_)
  cases ending with
  | ok =>
    refine PoolHook.Minds.bind ((B.verify scope hs).mono fun minis ⟨s', scope', ending⟩ hs' => ?_)
    cases ending with
    | ok => exact B.build scope' hs'
    | failed fault => exact hs'
    | panicked payload => exact hs'
  | failed fault => exact hs
  | panicked payload => exact hs

theorem miniPass (scope : Scope) (h : B.miniRefs m ⊆ refs) :
    (K.mini.pass m scope).Asks refs fun r => B.miniRefs r.1 ⊆ refs := by
  refine Hook.Asks.bind ((B.miniCheck h).mono fun ending _ => ?_)
  cases ending with
  | ok =>
    refine Hook.Asks.bind ((B.miniVerify scope h).mono fun ⟨m', scope', ending⟩ hm' => ?_)
    cases ending with
    | ok => exact B.miniBuild scope' hm'
    | failed fault => exact hm'
    | panicked payload => exact hm'
  | failed fault => exact h
  | panicked payload => exact h

end Bounds

/-- A factory gives components that hold on to what it has found in the fleet, and to no
mini-services yet. -/
def Factory.IsConfined (B : Bounds K) (factory : Factory K) : Prop :=
  ∀ r product, (factory r).product = .ok product →
    B.Keeps {cell | ∃ name, r.component name = .ok cell} ∅ product.service

end Steward
