import Mathlib.Data.List.Nodup
import Steward.Mini.Store
/-!
A pool in two parts: the ids in their order, and a table of the entries. Looking up and counting
reads the table, going through the pool reads the order, and every change has to keep the two in
step. As long as it does, such a pool shows and does what a store does.
-/
namespace Steward.Mini

variable {ε μ : Type}

namespace Store

variable {s : Store ε} {id : String}

theorem contains_iff : s.contains id = true ↔ id ∈ s.ids := by
  simp [contains, ids]

theorem find?_eq_none_iff : s.find? id = none ↔ id ∉ s.ids := by
  rw [find?, List.find?_eq_none, ids, List.mem_map, not_exists]
  simp only [beq_iff_eq, not_and]

theorem find?_eq_some_iff (hs : s.ids.Nodup) {e : Entry ε} :
    s.find? id = some e ↔ e ∈ s.entries ∧ e.id = id := by
  constructor
  · intro h
    exact ⟨List.mem_of_find?_eq_some h, by simpa using List.find?_some h⟩
  · rintro ⟨he, rfl⟩
    obtain ⟨e', hfind⟩ : ∃ e', s.find? e.id = some e' := by
      refine Option.ne_none_iff_exists'.1 fun hnone => ?_
      exact find?_eq_none_iff.1 hnone (List.mem_map_of_mem he)
    have hid : e'.id = e.id := by simpa using List.find?_some hfind
    rw [hfind, List.inj_on_of_nodup_map hs (List.mem_of_find?_eq_some hfind) he hid]

/-- All that a store shows is the same set of mini-services. -/
structure Shows (s : Store ε) : Prop where
  size : s.size = s.ids.length
  isEmpty : s.isEmpty = true ↔ s.ids = []
  countWhere : ∀ condition, s.countWhere condition = (s.entries.filter condition).length
  countAll : s.countWhere (fun _ => true) = s.ids.length
  contains : ∀ id, s.contains id = true ↔ id ∈ s.ids
  find? : ∀ id e, s.find? id = some e ↔ e ∈ s.entries ∧ e.id = id
  get : ∀ id cell, s.get id = .ok cell ↔ ∃ e ∈ s.entries, e.id = id ∧ e.cell = cell
  get_error : ∀ id fault, s.get id = .error fault ↔
    id ∉ s.ids ∧ fault = .miniServiceNotFound s.manager id
  entity? : ∀ id entity, s.entity? id = some entity ↔
    ∃ e ∈ s.entries, e.id = id ∧ e.entity = entity

theorem shows_of_nodup (hs : s.ids.Nodup) : s.Shows where
  size := (List.length_map _).symm
  isEmpty := by rw [isEmpty, List.isEmpty_iff, ids, List.map_eq_nil_iff]
  countWhere _ := List.countP_eq_length_filter
  countAll := by rw [Store.countWhere, List.countP_true, ids, List.length_map]
  contains _ := contains_iff
  find? _ _ := find?_eq_some_iff hs
  get id cell := by
    simp only [← and_assoc, ← find?_eq_some_iff hs, get]
    cases s.find? id <;> simp
  get_error id fault := by
    rw [← find?_eq_none_iff, get]
    cases s.find? id <;> simp [eq_comm]
  entity? id entity := by
    simp only [← and_assoc, ← find?_eq_some_iff hs, entity?, Option.map_eq_some_iff]

end Store

structure Pool (ε : Type) where
  manager : String
  order : List String
  table : Std.HashMap String (Entry ε)

namespace Pool

def empty (manager : String) : Pool ε := ⟨manager, [], ∅⟩

def find? (p : Pool ε) (id : String) : Option (Entry ε) := p.table[id]?

def contains (p : Pool ε) (id : String) : Bool := p.table.contains id

/-- The entries in the order of their ids. -/
def entries (p : Pool ε) : List (Entry ε) := p.order.filterMap p.find?

def size (p : Pool ε) : Nat := p.table.size

def isEmpty (p : Pool ε) : Bool := p.table.isEmpty

def tableEntries (p : Pool ε) : List (Entry ε) := p.table.toList.map (·.2)

def countWhere (p : Pool ε) (condition : Entry ε → Bool) : Nat := p.tableEntries.countP condition

def get (p : Pool ε) (id : String) : Except Fault CellId :=
  match p.find? id with
  | some e => .ok e.cell
  | none => .error (.miniServiceNotFound p.manager id)

def entity? (p : Pool ε) (id : String) : Option ε := (p.find? id).map (·.entity)

def add (p : Pool ε) (entry : Entry ε) : Except Fault (Pool ε) :=
  if p.contains entry.id then .error (.miniServiceAlreadyExists p.manager entry.id)
  else .ok { p with
    order := p.order ++ [entry.id]
    table := p.table.insert entry.id entry }

/-- Takes an entry out of both parts, if it is there, and answers its cell. -/
def remove (p : Pool ε) (id : String) : Pool ε × Option CellId :=
  match p.find? id with
  | some e =>
    ({ p with order := p.order.filter (· != id), table := p.table.erase id }, some e.cell)
  | none => (p, none)

def evict : List String → Std.HashMap String (Entry ε) → List CellId
  | [], _ => []
  | id :: ids, table =>
    match table[id]? with
    | some e => e.cell :: evict ids (table.erase id)
    | none => evict ids table

def clear (p : Pool ε) : Pool ε × List CellId :=
  ({ p with order := [], table := ∅ }, evict p.order p.table)

def destroyAll (p : Pool ε) : PoolHook μ (Pool ε × Nat) := do
  let (p, evicted) := p.clear
  Store.destroyCells evicted
  return (p, evicted.length)

def rebuild (p : Pool ε) (id : String) (token : Token) : PoolHook μ (Except Fault Report) :=
  match p.get id with
  | .ok cell => PoolHook.build cell token
  | .error fault => return .error fault

structure InStep (p : Pool ε) : Prop where
  nodup : p.order.Nodup
  mem_iff : ∀ id, id ∈ p.order ↔ id ∈ p.table
  id_eq : ∀ {id e}, p.find? id = some e → e.id = id

/-- The store of the same entries. -/
def store (p : Pool ε) : Store ε := ⟨p.manager, p.entries⟩

variable {p : Pool ε} {id : String} {entry : Entry ε}

theorem inStep_empty (manager : String) : (empty manager : Pool ε).InStep :=
  ⟨List.nodup_nil, by simp [empty], by simp [empty, find?]⟩

namespace InStep

theorem exists_find? (h : p.InStep) (hid : id ∈ p.order) : ∃ e, p.find? id = some e :=
  Option.isSome_iff_exists.1 (by simpa [find?] using (h.mem_iff id).1 hid)

theorem ids_store (h : p.InStep) : p.store.ids = p.order := by
  have hall : ∀ {ids : List String}, (∀ id ∈ ids, ∃ e, p.find? id = some e) →
      (ids.filterMap p.find?).map (·.id) = ids := by
    intro ids hids
    induction ids with
    | nil => rfl
    | cons id ids ih =>
      obtain ⟨e, he⟩ := hids id List.mem_cons_self
      rw [List.filterMap_cons_some he, List.map_cons, h.id_eq he,
        ih fun id hid => hids id (List.mem_cons_of_mem _ hid)]
  exact hall fun _ => h.exists_find?

theorem mem_entries_iff (h : p.InStep) {e : Entry ε} :
    e ∈ p.entries ↔ p.find? e.id = some e := by
  rw [entries, List.mem_filterMap]
  constructor
  · rintro ⟨id, -, he⟩
    rwa [h.id_eq he]
  · intro he
    refine ⟨e.id, (h.mem_iff _).2 ?_, he⟩
    exact Std.HashMap.mem_iff_isSome_getElem?.2 (by rw [← find?, he]; rfl)

theorem find?_store (h : p.InStep) (id : String) : p.store.find? id = p.find? id := by
  cases hfind : p.store.find? id with
  | some e =>
    have hid : e.id = id := by simpa using List.find?_some hfind
    rw [← hid, h.mem_entries_iff.1 (List.mem_of_find?_eq_some hfind)]
  | none =>
    refine (Option.eq_none_iff_forall_ne_some.2 fun e he => ?_).symm
    have hmem : e ∈ p.entries := h.mem_entries_iff.2 (by rwa [h.id_eq he])
    exact List.find?_eq_none.1 hfind e hmem (by simp [h.id_eq he])

theorem contains_store (h : p.InStep) (id : String) : p.store.contains id = p.contains id := by
  rw [contains, Std.HashMap.contains_eq_isSome_getElem?, ← find?, ← h.find?_store, Store.find?,
    List.isSome_find?]
  rfl

theorem get_store (h : p.InStep) (id : String) : p.store.get id = p.get id := by
  rw [Store.get, h.find?_store, get]
  rfl

theorem entity?_store (h : p.InStep) (id : String) : p.store.entity? id = p.entity? id := by
  rw [Store.entity?, h.find?_store, entity?]

theorem perm_entries (h : p.InStep) : p.tableEntries.Perm p.entries := by
  have hids : (p.tableEntries.map (·.id)).Nodup := by
    have hkeys : p.tableEntries.map (·.id) = p.table.keys := by
      rw [tableEntries, List.map_map, ← Std.HashMap.map_fst_toList_eq_keys]
      refine List.map_congr_left ?_
      rintro ⟨id, e⟩ hmem
      exact h.id_eq (Std.HashMap.mem_toList_iff_getElem?_eq_some.1 hmem)
    rw [hkeys]
    exact Std.HashMap.nodup_keys
  have hnodup : p.entries.Nodup := List.Nodup.of_map (·.id) <| by
    rw [show p.entries.map (·.id) = p.order from h.ids_store]
    exact h.nodup
  refine (List.perm_ext_iff_of_nodup (List.Nodup.of_map _ hids) hnodup).2 fun e => ?_
  rw [h.mem_entries_iff, tableEntries, List.mem_map]
  constructor
  · rintro ⟨⟨id, e'⟩, hmem, rfl⟩
    have hfind := Std.HashMap.mem_toList_iff_getElem?_eq_some.1 hmem
    rwa [h.id_eq hfind]
  · exact fun hfind => ⟨(e.id, e), Std.HashMap.mem_toList_iff_getElem?_eq_some.2 hfind, rfl⟩

theorem countWhere_store (h : p.InStep) (condition : Entry ε → Bool) :
    p.store.countWhere condition = p.countWhere condition :=
  (h.perm_entries.countP_eq condition).symm

theorem size_store (h : p.InStep) : p.store.size = p.size := by
  rw [Store.size, store, ← h.perm_entries.length_eq, tableEntries, List.length_map,
    Std.HashMap.length_toList, size]

theorem isEmpty_store (h : p.InStep) : p.store.isEmpty = p.isEmpty := by
  rw [isEmpty, Std.HashMap.isEmpty_eq_size_eq_zero, ← size, ← h.size_store, Store.isEmpty,
    Store.size]
  cases p.store.entries <;> rfl

end InStep

theorem filterMap_insert {table : Std.HashMap String (Entry ε)} {ids : List String}
    (h : entry.id ∉ ids) : ids.filterMap (fun id => (table.insert entry.id entry)[id]?) =
      ids.filterMap fun id => table[id]? := by
  refine List.filterMap_congr fun id hid => ?_
  rw [Std.HashMap.getElem?_insert, if_neg]
  rintro heq
  exact h (beq_iff_eq.1 heq ▸ hid)

theorem InStep.not_mem_order (h : p.InStep) (hid : p.contains id = false) : id ∉ p.order := by
  rw [h.mem_iff, ← Std.HashMap.contains_iff_mem, ← contains, hid]
  exact Bool.false_ne_true

theorem InStep.add (h : p.InStep) (entry : Entry ε) : (∃ fault, p.add entry = .error fault ∧
      p.store.add entry = .error fault) ∨
    ∃ q, p.add entry = .ok q ∧ q.InStep ∧ p.store.add entry = .ok q.store := by
  rw [Pool.add, Store.add, h.contains_store]
  cases hid : p.contains entry.id with
  | true => exact .inl ⟨_, rfl, rfl⟩
  | false =>
    have hnew : entry.id ∉ p.order := h.not_mem_order hid
    refine .inr ⟨_, rfl, ⟨?_, fun id => ?_, fun {id e} he => ?_⟩, ?_⟩
    · exact List.nodup_append.2 ⟨h.nodup, List.nodup_singleton _,
        fun a ha b hb heq => hnew (List.mem_singleton.1 hb ▸ heq ▸ ha)⟩
    · rw [List.mem_append, List.mem_singleton, Std.HashMap.mem_insert, h.mem_iff, beq_iff_eq,
        or_comm, eq_comm]
    · rw [find?, Std.HashMap.getElem?_insert] at he
      split at he
      · exact Option.some.inj he ▸ beq_iff_eq.1 ‹_›
      · exact h.id_eq he
    · refine congrArg Except.ok (congrArg (Store.mk p.manager) ?_)
      show p.entries ++ [entry] = List.filterMap _ (p.order ++ [entry.id])
      rw [List.filterMap_append]
      refine congrArg₂ _ (filterMap_insert hnew).symm ?_
      simp [find?]

theorem InStep.remove (h : p.InStep) (id : String) : (p.remove id).1.InStep ∧
    (p.remove id).1.store = p.store.remove id ∧
      (p.remove id).2 = (p.store.find? id).map (·.cell) := by
  rw [h.find?_store, Pool.remove]
  cases hfind : p.find? id with
  | none =>
    refine ⟨h, congrArg (Store.mk p.manager) (List.filter_eq_self.2 fun e he => ?_).symm, rfl⟩
    rw [h.mem_entries_iff] at he
    exact bne_iff_ne.2 fun heq => by rw [heq, hfind] at he; cases he
  | some entry =>
    refine ⟨⟨h.nodup.filter _, fun i => ?_, fun {i e} he => ?_⟩,
      congrArg (Store.mk p.manager) ?_, rfl⟩
    · rw [List.mem_filter, Std.HashMap.mem_erase, h.mem_iff, and_comm]
      exact and_congr_left fun _ => by rw [bne_iff_ne, beq_eq_false_iff_ne, ne_comm]
    · rw [find?, Std.HashMap.getElem?_erase] at he
      split at he
      · cases he
      · exact h.id_eq he
    · show List.filterMap _ (p.order.filter (· != id)) = p.entries.filter (·.id != id)
      rw [List.filterMap_filter, entries, List.filter_filterMap]
      refine List.filterMap_congr fun i hi => ?_
      obtain ⟨e, he⟩ := h.exists_find? hi
      rw [he, find?, Std.HashMap.getElem?_erase, ← find?, he]
      obtain rfl := h.id_eq he
      by_cases heq : e.id = id
      · simp [heq, Option.filter]
      · simp [heq, Ne.symm heq, Option.filter]

theorem evict_eq {table : Std.HashMap String (Entry ε)} {ids : List String} (h : ids.Nodup) :
    evict ids table = (ids.filterMap fun id => table[id]?).map (·.cell) := by
  induction ids generalizing table with
  | nil => rfl
  | cons id ids ih =>
    obtain ⟨hid, hids⟩ := List.nodup_cons.1 h
    cases hfind : table[id]? with
    | none => simp only [evict, List.filterMap_cons, hfind, ih hids]
    | some e =>
      have hrest : (ids.filterMap fun i => (table.erase id)[i]?) =
          ids.filterMap fun i => table[i]? := by
        refine List.filterMap_congr fun i hi => ?_
        rw [Std.HashMap.getElem?_erase, if_neg]
        rintro heq
        exact hid (beq_iff_eq.1 heq ▸ hi)
      simp only [evict, List.filterMap_cons, hfind, ih hids, hrest, List.map_cons]

theorem InStep.clear (h : p.InStep) : p.clear.1.InStep ∧ p.clear.1.store = p.store.clear ∧
    p.clear.2 = p.store.entries.map (·.cell) :=
  ⟨inStep_empty p.manager, rfl, evict_eq h.nodup⟩

theorem InStep.destroyAll (h : p.InStep) :
    (fun r => (r.1.store, r.2)) <$> (p.destroyAll : PoolHook μ _) =
      (fun s => (s, p.store.size)) <$> p.store.destroyAll := by
  obtain ⟨-, hstore, hcells⟩ := h.clear
  simp only [Pool.destroyAll, Store.destroyAll, map_bind, map_pure, hstore, hcells,
    List.length_map, Store.size]

theorem InStep.rebuild (h : p.InStep) (id : String) (token : Token) :
    (p.rebuild id token : PoolHook μ _) = p.store.rebuild id token := by
  cases hget : p.get id with
  | ok cell => simp only [Pool.rebuild, Store.rebuild, h.get_store, hget]
  | error fault => simp only [Pool.rebuild, Store.rebuild, h.get_store, hget]

end Pool

end Steward.Mini
