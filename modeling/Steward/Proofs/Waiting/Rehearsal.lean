import Steward.Proofs.Sequence
import Steward.Proofs.Waiting.Bounds
import Steward.Rehearsal.Casting
/-!
The bounds of rehearsed components. Probes wait for what they need and watch, tenants for their
secret store, and managers for the mini-services in their stores; factories give them only what they
have found.
-/
namespace Steward

namespace Mini.Store

open PoolHook

variable {ε μ : Type} {refs minis : Set CellId} {miniRefs : μ → Set CellId} {s : Store ε}

def IsIn (minis : Set CellId) (s : Store ε) : Prop := ∀ entry ∈ s.entries, entry.cell ∈ minis

theorem minds_destroyCells {cells : List CellId} (hcells : ∀ cell ∈ cells, cell ∈ minis) :
    (destroyCells cells).Minds miniRefs refs minis fun minis' _ => minis' = minis := by
  induction cells with
  | nil => rfl
  | cons cell cells ih =>
    obtain ⟨hcell, hrest⟩ := List.forall_mem_cons.1 hcells
    exact minds_destroy hcell (ih hrest)

theorem minds_destroyAll (hs : s.IsIn minis) :
    s.destroyAll.Minds miniRefs refs minis fun minis' s' => s'.IsIn minis' := by
  have hcells : ∀ cell ∈ s.entries.map (·.cell), cell ∈ minis := by
    intro cell hcell
    obtain ⟨entry, hentry, rfl⟩ := List.mem_map.1 hcell
    exact hs entry hentry
  refine Minds.bind ((minds_destroyCells hcells).mono fun minis' _ _ => ?_)
  exact List.forall_mem_nil _

theorem minds_leaveOut {counter : Counter} {cell : CellId} {notice : Notice}
    (hcell : cell ∈ minis) :
    (leaveOut counter cell notice).Minds miniRefs refs minis fun minis' _ => minis' = minis :=
  minds_report (minds_destroy hcell rfl)

theorem minds_enlist {idOf : ε → String} {make : ε → μ} {token : Token} {counter : Counter}
    (hmake : ∀ entity, miniRefs (make entity) ⊆ refs) (entity : ε) (hs : s.IsIn minis) :
    (enlist idOf make token s counter entity).Minds miniRefs refs minis fun minis' r =>
      r.1.IsIn minis' := by
  refine minds_enroll (hmake entity) fun cell => ?_
  have hcell : cell ∈ insert cell minis := Set.mem_insert cell minis
  have hs' : s.IsIn (insert cell minis) := fun entry hentry =>
    Set.mem_insert_of_mem _ (hs entry hentry)
  have hleft {notice : Notice} :
      (leaveOut counter cell notice >>= fun counter => pure (s, counter)).Minds miniRefs refs
        (insert cell minis) fun minis' r => r.1.IsIn minis' := by
    refine Minds.bind ((minds_leaveOut hcell).mono ?_)
    rintro minis' _ rfl
    exact hs'
  refine minds_build hcell fun r => ?_
  cases r with
  | error fault => exact hleft
  | ok report =>
    dsimp only
    split
    · exact hleft
    · cases hadd : s.add ⟨idOf entity, entity, cell⟩ with
      | error fault => exact hleft
      | ok s' =>
        obtain rfl : { s with entries := s.entries ++ [⟨idOf entity, entity, cell⟩] } = s' := by
          unfold add at hadd
          split at hadd
          · cases hadd
          · exact Except.ok.inj hadd
        exact List.forall_mem_append.2 ⟨hs', List.forall_mem_singleton.2 hcell⟩

theorem minds_enlistAll {idOf : ε → String} {make : ε → μ} {token : Token} {counter : Counter}
    (hmake : ∀ entity, miniRefs (make entity) ⊆ refs) (entities : List ε) (hs : s.IsIn minis) :
    (enlistAll idOf make token entities s counter).Minds miniRefs refs minis fun minis' r =>
      r.1.IsIn minis' := by
  induction entities generalizing minis s counter with
  | nil => exact hs
  | cons entity entities ih =>
    exact Minds.bind ((minds_enlist hmake entity hs).mono fun _ _ hr => ih hr)

theorem minds_populate {idOf : ε → String} {make : ε → μ} {token : Token}
    (hmake : ∀ entity, miniRefs (make entity) ⊆ refs) (entities : List ε) (hs : s.IsIn minis) :
    (s.populate idOf make entities token).Minds miniRefs refs minis fun minis' r =>
      r.1.IsIn minis' :=
  Minds.bind ((minds_destroyAll hs).mono fun _ _ hs' => minds_enlistAll hmake entities hs')

end Mini.Store

namespace Rehearsal

open Hook PoolHook

variable {refs minis : Set CellId} {α : Type}

namespace Probe

def known (p : Probe) : Set CellId :=
  {cell | cell ∈ p.needs.map (·.2) ∨ cell ∈ p.watch.map (·.1)}

theorem asks_unmet? {needs : List (String × CellId)} (hneeds : ∀ need ∈ needs, need.2 ∈ refs) :
    (unmet? needs).Asks refs fun _ => True := by
  induction needs with
  | nil => trivial
  | cons need needs ih =>
    obtain ⟨hneed, hrest⟩ := List.forall_mem_cons.1 hneeds
    refine asks_statusOf hneed fun status => ?_
    split
    · exact ih hrest
    · trivial

theorem asks_closeWatched {watch : List (CellId × String)} {scope : Scope}
    (hwatch : ∀ watched ∈ watch, watched.1 ∈ refs) :
    (closeWatched watch scope).Asks refs fun _ => True := by
  induction watch generalizing scope with
  | nil => trivial
  | cons watched watch ih =>
    obtain ⟨hwatched, hrest⟩ := List.forall_mem_cons.1 hwatch
    exact asks_statusOf hwatched fun _ => ih hrest

theorem asks_verifyHook {p : Probe} (hp : p.known ⊆ refs) (scope : Scope) :
    (p.verifyHook scope).Asks refs fun r => r.1.known ⊆ refs := by
  have hneeds : ∀ need ∈ p.needs, need.2 ∈ refs := fun _ hneed =>
    hp (.inl (List.mem_map_of_mem hneed))
  have hwatch : ∀ watched ∈ p.watch, watched.1 ∈ refs := fun _ hwatched =>
    hp (.inr (List.mem_map_of_mem hwatched))
  refine asks_note (Asks.bind ((asks_unmet? hneeds).mono fun unmet _ => ?_))
  cases unmet with
  | some unmet => exact hp
  | none => exact Asks.bind ((asks_closeWatched hwatch).mono fun _ _ => hp)

theorem asks_buildHook {p : Probe} (hp : p.known ⊆ refs) (scope : Scope) :
    (p.buildHook scope).Asks refs fun r => r.1.known ⊆ refs := by
  refine asks_note (asks_rest ?_)
  dsimp only
  split <;> exact hp

theorem asks_destroyHook {p : Probe} (hp : p.known ⊆ refs) :
    p.destroyHook.Asks refs fun r => r.1.known ⊆ refs :=
  asks_note (asks_rest hp)

end Probe

namespace Tenant

def known (t : Tenant) : Set CellId := {cell | t.secretStore = some cell}

theorem asks_buildHook {t : Tenant} (ht : t.known ⊆ refs) (scope : Scope) :
    (t.buildHook scope).Asks refs fun r => r.1.known ⊆ refs :=
  asks_note (asks_clock fun _ => ht)

theorem asks_storeStatusHook {t : Tenant} (ht : t.known ⊆ refs) :
    t.storeStatusHook.Asks refs fun r => r.1.known ⊆ refs := by
  unfold storeStatusHook
  split
  · exact ht
  · rename_i cell _ hcell
    exact asks_statusOf (ht hcell) fun _ => ht
  · exact ht

theorem asks_rotateHook {t : Tenant} (ht : t.known ⊆ refs) :
    t.rotateHook.Asks refs fun r => r.1.known ⊆ refs := by
  refine asks_note ?_
  dsimp only
  split
  · exact ht
  · exact ht
  · exact asks_clock fun _ => ht

end Tenant

namespace Service

def known : Service → Set CellId
  | .probe p => p.known
  | .tenant t => t.known
  | _ => ∅

def pool : Service → Set CellId
  | .manager m => {cell | cell ∈ m.store.entries.map (·.cell)}
  | _ => ∅

end Service

def holdings : Holdings kit where
  refs := Service.known
  minis := Service.pool
  miniRefs _ := ∅

theorem keeps_probe {p : Probe} (h : p.known ⊆ refs) : holdings.Keeps refs minis (.probe p) :=
  ⟨h, Set.empty_subset _⟩

theorem keeps_tenant {t : Tenant} (h : t.known ⊆ refs) : holdings.Keeps refs minis (.tenant t) :=
  ⟨h, Set.empty_subset _⟩

theorem keeps_manager {m : Manager} (h : m.store.IsIn minis) :
    holdings.Keeps refs minis (.manager m) := by
  refine ⟨Set.empty_subset _, fun cell hcell => ?_⟩
  obtain ⟨entry, hentry, rfl⟩ := List.mem_map.1 hcell
  exact h entry hentry

theorem isIn_of_keeps {m : Manager} (h : holdings.Keeps refs minis (.manager m)) :
    m.store.IsIn minis := fun _ hentry => h.minis (List.mem_map_of_mem hentry)

theorem minds_managerBuild {m : Manager} (hm : m.store.IsIn minis) (scope : Scope) :
    (m.buildHook scope).Minds holdings.miniRefs refs minis fun minis' r =>
      r.1.store.IsIn minis' := by
  have hfill (entities : List Entity) :
      (Manager.fill m.store entities scope.token).Minds holdings.miniRefs refs minis
        fun minis' r => r.1.IsIn minis' := by
    refine Mini.Store.minds_populate ?_ entities hm
    exact fun _ => Set.empty_subset _
  exact Minds.bind (minds_ofHook (asks_note (Minds.bind ((hfill _).mono fun _ _ h => h))))

theorem minds_managerDestroy {m : Manager} (hm : m.store.IsIn minis) :
    m.destroyHook.Minds holdings.miniRefs refs minis fun minis' r => r.1.store.IsIn minis' :=
  Minds.bind (minds_ofHook (asks_note
    (Minds.bind ((Mini.Store.minds_destroyAll hm).mono fun _ _ h => h))))

namespace Service

variable {s : Service}

theorem minds_check (h : holdings.Keeps refs minis s) :
    s.check.Minds holdings.miniRefs refs minis fun minis' _ => holdings.Keeps refs minis' s := by
  cases s with
  | probe p => exact minds_ofHook (asks_note h)
  | _ => exact h

theorem minds_verify (scope : Scope) (h : holdings.Keeps refs minis s) :
    (s.verify scope).Minds holdings.miniRefs refs minis fun minis' r =>
      holdings.Keeps refs minis' r.1 := by
  cases s with
  | probe p =>
    refine Minds.bind (minds_ofHook ((Probe.asks_verifyHook h.refs scope).mono ?_))
    exact fun _ hp => keeps_probe hp
  | _ => exact h

theorem minds_build (scope : Scope) (h : holdings.Keeps refs minis s) :
    (s.build scope).Minds holdings.miniRefs refs minis fun minis' r =>
      holdings.Keeps refs minis' r.1 := by
  cases s with
  | probe p =>
    refine Minds.bind (minds_ofHook ((Probe.asks_buildHook h.refs scope).mono ?_))
    exact fun _ hp => keeps_probe hp
  | unfinished label => exact h
  | manager m =>
    refine Minds.bind ((minds_managerBuild (isIn_of_keeps h) scope).mono ?_)
    exact fun _ _ hm => keeps_manager hm
  | tenant t =>
    refine Minds.bind (minds_ofHook ((Tenant.asks_buildHook h.refs scope).mono ?_))
    exact fun _ ht => keeps_tenant ht

theorem minds_destroy (h : holdings.Keeps refs minis s) :
    s.destroy.Minds holdings.miniRefs refs minis fun minis' r =>
      holdings.Keeps refs minis' r.1 := by
  cases s with
  | probe p =>
    refine Minds.bind (minds_ofHook ((Probe.asks_destroyHook h.refs).mono ?_))
    exact fun _ hp => keeps_probe hp
  | unfinished label => exact h
  | manager m =>
    refine Minds.bind ((minds_managerDestroy (isIn_of_keeps h)).mono ?_)
    exact fun _ _ hm => keeps_manager hm
  | tenant t => exact Minds.bind (minds_ofHook (asks_note h))

theorem mem_pool_of_pooled {entries : List (String × CellId)} (hentries : s.pooled = some entries) :
    ∀ entry ∈ entries, entry.2 ∈ s.pool := by
  intro entry hentry
  cases s with
  | manager m =>
    obtain rfl : m.store.cells = entries := Option.some.inj hentries
    obtain ⟨kept, hkept, rfl⟩ := List.mem_map.1 hentry
    show kept.cell ∈ m.store.entries.map (·.cell)
    exact List.mem_map_of_mem hkept
  | _ => cases hentries

theorem keeps_withSlot (slot : Slot) (h : holdings.Keeps refs minis s) :
    holdings.Keeps refs minis (s.withSlot slot) := by
  cases s with
  | tenant t => exact keeps_tenant h.refs
  | _ => exact h

theorem asks_storeStatus (h : holdings.Keeps refs minis s) :
    s.storeStatus.Asks (refs ∪ minis) fun r => holdings.Keeps refs minis r.1 := by
  cases s with
  | tenant t =>
    refine Asks.bind (((Tenant.asks_storeStatusHook h.refs).mono ?_).widen Set.subset_union_left)
    exact fun _ ht => keeps_tenant ht
  | _ => exact h

theorem asks_rotate (h : holdings.Keeps refs minis s) :
    s.rotate.Asks (refs ∪ minis) fun r => holdings.Keeps refs minis r.1 := by
  cases s with
  | tenant t =>
    refine Asks.bind (((Tenant.asks_rotateHook h.refs).mono ?_).widen Set.subset_union_left)
    exact fun _ ht => keeps_tenant ht
  | _ => exact h

end Service

/-- Rehearsed components keep to their bounds. -/
def bounds : Bounds kit where
  toHoldings := holdings
  check := Service.minds_check
  verify := Service.minds_verify
  build := Service.minds_build
  destroy := Service.minds_destroy
  pooled := Service.mem_pool_of_pooled
  withSlot := Service.keeps_withSlot
  storeStatus := Service.asks_storeStatus
  rotate := Service.asks_rotate
  miniCheck _ := trivial
  miniVerify _ h := h
  miniBuild _ h := asks_note h
  miniDestroy h := asks_note h

def foundBy (r : Resolver kit) : Set CellId := {cell | ∃ name, r.component name = .ok cell}

theorem mem_foundBy_of_typed {r : Resolver kit} {name typeName : String} {cell : CellId}
    (h : r.typed name typeName = .ok cell) : cell ∈ foundBy r := by
  obtain ⟨id, hid, h⟩ := bind_eq_ok.1 h
  split at h
  · obtain rfl := Except.ok.inj h
    exact ⟨name, hid⟩
  · cases h

theorem mem_foundBy_of_needs {r : Resolver kit} {names : List String}
    {needs : List (String × CellId)} {need : String × CellId}
    (h : (names.mapM fun name => do return (name, ← r.typed name "Probe")) = .ok needs)
    (hneed : need ∈ needs) : need.2 ∈ foundBy r := by
  obtain ⟨name, -, hname⟩ := exists_left_of_forall₂ (forall₂_of_mapM h) hneed
  obtain ⟨cell, hcell, hname⟩ := bind_eq_ok.1 hname
  obtain rfl := Except.ok.inj hname
  exact mem_foundBy_of_typed hcell

theorem mem_foundBy_of_watch {r : Resolver kit} {names : List (String × String)}
    {watch : List (CellId × String)} {watched : CellId × String}
    (h : (names.mapM fun (name, method) => do return (← r.component name, method)) = .ok watch)
    (hwatched : watched ∈ watch) : watched.1 ∈ foundBy r := by
  obtain ⟨pair, -, hname⟩ := exists_left_of_forall₂ (forall₂_of_mapM h) hwatched
  obtain ⟨cell, hcell, hname⟩ := bind_eq_ok.1 hname
  obtain rfl := Except.ok.inj hname
  exact ⟨pair.1, hcell⟩

def Role.IsBare : Role → Prop
  | .manager m => m.store.entries = []
  | .tenant t none => t.secretStore = none
  | _ => True

namespace Casting

theorem keeps_of_settle {c : Casting} {r : Resolver kit} {s : Service} (hc : c.role.IsBare)
    (h : c.settle r = .ok s) : holdings.Keeps (foundBy r) ∅ s := by
  obtain ⟨label, role, peeks, fault⟩ := c
  cases role with
  | probe p needs watch =>
    obtain ⟨needs', hneeds, h⟩ := bind_eq_ok.1 h
    obtain ⟨watch', hwatch, h⟩ := bind_eq_ok.1 h
    obtain rfl := Except.ok.inj h
    refine keeps_probe ?_
    rintro cell (hcell | hcell)
    · obtain ⟨need, hneed, rfl⟩ := List.mem_map.1 hcell
      exact mem_foundBy_of_needs hneeds hneed
    · obtain ⟨watched, hwatched, rfl⟩ := List.mem_map.1 hcell
      exact mem_foundBy_of_watch hwatch hwatched
  | unfinished =>
    obtain rfl := Except.ok.inj h
    exact ⟨Set.empty_subset _, Set.empty_subset _⟩
  | manager m =>
    obtain rfl := Except.ok.inj h
    refine keeps_manager fun entry hentry => ?_
    rw [show m.store.entries = [] from hc] at hentry
    cases hentry
  | tenant t secretStore =>
    cases secretStore with
    | some name =>
      obtain ⟨found, hfound, h⟩ := bind_eq_ok.1 h
      obtain rfl := Except.ok.inj h
      refine keeps_tenant fun cell hcell => ?_
      obtain rfl : found = cell := Option.some.inj hcell
      exact ⟨name, hfound⟩
    | none =>
      obtain rfl := Except.ok.inj h
      refine keeps_tenant fun cell hcell => ?_
      have hnone : t.secretStore = none := hc
      rw [show t.secretStore = some cell from hcell] at hnone
      cases hnone

theorem isConfined_factory {c : Casting} (hc : c.role.IsBare) :
    Factory.IsConfined bounds c.factory := by
  intro r product h
  cases hfault : c.fault with
  | some message =>
    simp only [factory, hfault] at h
    cases h
  | none =>
    simp only [factory, hfault] at h
    obtain ⟨s, hs, h⟩ := bind_eq_ok.1 h
    obtain rfl := Except.ok.inj h
    exact keeps_of_settle hc hs

end Casting

end Rehearsal

end Steward
