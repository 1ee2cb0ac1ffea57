import Mathlib.Data.List.Nodup
import Mathlib.Data.List.Infix
import Steward.Setting
/-!
Settings that lie over one another. What stands at a path of names is what the uppermost layer says
there, as long as no layer has put a single value where another one has a group.
-/
namespace Steward

namespace Keyed

variable {α : Type} {entries : List (String × α)} {name : String} {value : α}

theorem mem_names_put {n : String} :
    n ∈ (put entries name value).map (·.1) ↔ n = name ∨ n ∈ entries.map (·.1) := by
  induction entries with
  | nil => simp [put]
  | cons entry rest ih =>
    unfold put
    split
    · rename_i heq
      simp [← heq]
    · simp only [List.map_cons, List.mem_cons, ih]
      exact or_left_comm

theorem nodup_names_put (h : (entries.map (·.1)).Nodup) :
    ((put entries name value).map (·.1)).Nodup := by
  induction entries with
  | nil => simp [put]
  | cons entry rest ih =>
    rw [List.map_cons, List.nodup_cons] at h
    unfold put
    split
    · rw [List.map_cons, List.nodup_cons]
      exact h
    · rename_i hne
      rw [List.map_cons, List.nodup_cons, mem_names_put]
      exact ⟨by simp [hne, h.1], ih h.2⟩

theorem mem_of_mem_put {entry : String × α} (h : entry ∈ put entries name value) :
    entry = (name, value) ∨ entry ∈ entries := by
  induction entries with
  | nil => simpa [put] using h
  | cons first rest ih =>
    unfold put at h
    split at h
    · rename_i heq
      rw [heq] at h
      simp only [List.mem_cons] at h ⊢
      exact h.imp_right .inr
    · simp only [List.mem_cons] at h ⊢
      rcases h with h | h
      · exact .inr (.inl h)
      · exact (ih h).imp_right .inr

theorem lookup_eq_none_of_notMem (h : name ∉ entries.map (·.1)) : entries.lookup name = none := by
  rw [List.lookup_eq_none_iff]
  intro entry hentry
  rw [bne_iff_ne]
  rintro rfl
  exact h (List.mem_map_of_mem hentry)

theorem mem_of_lookup (h : entries.lookup name = some value) : (name, value) ∈ entries := by
  obtain ⟨before, after, rfl, -⟩ := List.lookup_eq_some_iff.1 h
  simp

end Keyed

namespace Setting

/-- The setting at a path of names. -/
def at? : List String → Setting → Option Setting
  | [], s => some s
  | name :: path, .group ms => (ms.lookup name).bind (at? path)
  | _ :: _, _ => none

def IsScalar : Setting → Prop
  | .list _ | .group _ => False
  | _ => True

inductive Unambiguous : Setting → Prop
  | plain {s : Setting} (h : ∀ ms, s ≠ .group ms) : Unambiguous s
  | group {ms : List (String × Setting)} (names : (ms.map (·.1)).Nodup)
      (members : ∀ m ∈ ms, Unambiguous m.2) : Unambiguous (.group ms)

def atop : Option Setting → Option Setting → Option Setting
  | some s, some t => some (s.laidOver t)
  | some s, none => some s
  | none, t => t

variable {s t u : Setting} {ms ls : List (String × Setting)} {p q : List String}

@[simp] theorem atop_none_right (a : Option Setting) : atop a none = a := by cases a <;> rfl

@[simp] theorem atop_none_left (a : Option Setting) : atop none a = a := by cases a <;> rfl

theorem laidOver_of_ne_group (h : ∀ ms, s ≠ .group ms) (t : Setting) : s.laidOver t = s := by
  cases s with
  | group ms => exact absurd rfl (h ms)
  | _ => simp [laidOver]

theorem IsScalar.ne_group (h : s.IsScalar) (ms : List (String × Setting)) : s ≠ .group ms := by
  rintro rfl
  exact h

theorem atop_of_isScalar (h : s.IsScalar) (a : Option Setting) : atop (some s) a = some s := by
  cases a with
  | none => rfl
  | some t => rw [atop, laidOver_of_ne_group h.ne_group]

theorem exists_group_atop (a : Option Setting) :
    ∃ ns, atop (some (.group ms)) a = some (.group ns) := by
  cases a with
  | none => exact ⟨ms, rfl⟩
  | some t => cases t <;> simp [atop, laidOver]

theorem lookup_membersOver (h : (ms.map (·.1)).Nodup) (name : String) :
    (membersOver ms ls).lookup name = atop (ms.lookup name) (ls.lookup name) := by
  induction ms generalizing ls with
  | nil => simp [membersOver]
  | cons m ms ih =>
    obtain ⟨n, s⟩ := m
    rw [List.map_cons, List.nodup_cons] at h
    simp only [membersOver, ih h.2, Keyed.lookup_put]
    by_cases hn : name = n
    · subst hn
      rw [Keyed.lookup_eq_none_of_notMem h.1, if_pos rfl, List.lookup_cons_self]
      cases ls.lookup name <;> rfl
    · rw [if_neg hn, List.lookup_cons, beq_eq_false_iff_ne.2 hn]

theorem unambiguous_membersOver
    (hms : ∀ m ∈ ms, Unambiguous m.2 ∧ ∀ t, Unambiguous t → Unambiguous (m.2.laidOver t))
    (hls : Unambiguous (.group ls)) : Unambiguous (.group (membersOver ms ls)) := by
  induction ms generalizing ls with
  | nil => simpa [membersOver] using hls
  | cons m ms ih =>
    obtain ⟨n, s⟩ := m
    obtain ⟨⟨hs, hover⟩, hrest⟩ := List.forall_mem_cons.1 hms
    rw [membersOver]
    refine ih hrest ?_
    cases hls with
    | plain h => exact absurd rfl (h ls)
    | group names members =>
      refine .group (Keyed.nodup_names_put names) fun m hm => ?_
      rcases Keyed.mem_of_mem_put hm with rfl | hm
      · dsimp only
        split
        · rename_i t ht
          exact hover t (members _ (Keyed.mem_of_lookup ht))
        · exact hs
      · exact members m hm

theorem Unambiguous.laidOver (hs : Unambiguous s) (ht : Unambiguous t) :
    Unambiguous (s.laidOver t) := by
  induction hs generalizing t with
  | plain h =>
    rw [laidOver_of_ne_group h]
    exact .plain h
  | @group ms names members ih =>
    cases t with
    | group ls =>
      rw [Setting.laidOver]
      exact unambiguous_membersOver (fun m hm => ⟨members m hm, fun t ht => ih m hm ht⟩) ht
    | _ =>
      simp only [Setting.laidOver]
      exact .group names members

theorem at?_append (s : Setting) (p q : List String) : s.at? (p ++ q) = (s.at? p).bind (at? q) := by
  induction p generalizing s with
  | nil => rfl
  | cons name p ih =>
    cases s with
    | group ms =>
      simp only [List.cons_append, at?]
      cases ms.lookup name with
      | none => rfl
      | some t => exact ih t
    | _ => rfl

theorem IsScalar.at?_cons (h : s.IsScalar) (name : String) (p : List String) :
    s.at? (name :: p) = none := by
  cases s with
  | group ms => exact h.elim
  | _ => rfl

def IsOpen (s : Setting) (p : List String) : Prop :=
  ∀ q t, q <+: p → q ≠ p → s.at? q = some t → ∃ ms, t = .group ms

theorem IsOpen.exists_group {name : String} (h : s.IsOpen (name :: p)) : ∃ ms, s = .group ms :=
  h [] s (List.nil_prefix) (by simp) rfl

theorem IsOpen.member {name : String} (h : (Setting.group ms).IsOpen (name :: p))
    (hs : ms.lookup name = some s) : s.IsOpen p := by
  intro q t hq hne ht
  refine h (name :: q) t (List.cons_prefix_cons.2 ⟨rfl, hq⟩) (by simpa using hne) ?_
  rw [at?, hs]
  exact ht

theorem at?_laidOver (hs : s.Unambiguous) (t : Setting) (hopen : s.IsOpen p) :
    (s.laidOver t).at? p = atop (s.at? p) (t.at? p) := by
  induction p generalizing s t with
  | nil => rfl
  | cons name p ih =>
    obtain ⟨ms, rfl⟩ := hopen.exists_group
    cases hs with
    | plain h => exact absurd rfl (h ms)
    | group names members =>
      cases t with
      | group ls =>
        rw [laidOver, at?, at?, at?, lookup_membersOver names]
        rcases hm : ms.lookup name with _ | s
        · simp
        · have hmem := members _ (Keyed.mem_of_lookup hm)
          rcases ls.lookup name with _ | t
          · simp
          · exact ih hmem t (hopen.member hm)
      | _ => simp [laidOver, at?]

theorem nested_unambiguous (h : s.IsScalar) (p : List String) : (nested p s).Unambiguous := by
  induction p with
  | nil => exact .plain h.ne_group
  | cons name p ih => exact .group (by simp) (by simpa using ih)

theorem at?_nested_append (p q : List String) (s : Setting) :
    (nested (p ++ q) s).at? p = some (nested q s) := by
  induction p with
  | nil => rfl
  | cons name p ih => simpa [nested, at?] using ih

theorem at?_nested_eq_none (hp : ¬ p <+: q) (hq : ¬ q <+: p) (s : Setting) :
    (nested q s).at? p = none := by
  induction q generalizing p with
  | nil => exact absurd List.nil_prefix hq
  | cons name q ih =>
    cases p with
    | nil => exact absurd List.nil_prefix hp
    | cons name' p =>
      rw [List.cons_prefix_cons, not_and] at hp hq
      rw [nested, at?, List.lookup_cons]
      by_cases hn : name' = name
      · rw [beq_iff_eq.2 hn, Option.bind_some]
        exact ih (hp hn) (hq hn.symm)
      · rw [beq_eq_false_iff_ne.2 hn]
        rfl

theorem isOpen_nested (h : q <+: p → q = p) (s : Setting) : (nested q s).IsOpen p := by
  intro r t hr hne ht
  by_cases hrq : r <+: q
  · obtain ⟨rest, rfl⟩ := hrq
    rw [at?_nested_append, Option.some_inj] at ht
    cases rest with
    | nil =>
      rw [List.append_nil] at h
      exact absurd (h hr) hne
    | cons name rest => exact ⟨_, ht.symm⟩
  · have hqr : ¬ q <+: r := fun hqr => hrq (h (hqr.trans hr) ▸ hr)
    rw [at?_nested_eq_none hrq hqr] at ht
    cases ht

theorem at?_nested_laidOver (hs : s.IsScalar) (t : Setting) :
    ((nested p s).laidOver t).at? p = some s := by
  rw [at?_laidOver (nested_unambiguous hs p) t (isOpen_nested (fun _ => rfl) s)]
  have hself := at?_nested_append p [] s
  rw [List.append_nil] at hself
  rw [hself, nested, atop_of_isScalar hs]

theorem at?_nested_laidOver_of_above (hs : s.IsScalar) (t : Setting) (h : q <+: p) (hne : q ≠ p) :
    ((nested q s).laidOver t).at? p = none := by
  obtain ⟨rest, rfl⟩ := h
  rw [at?_append, at?_nested_laidOver hs, Option.bind_some]
  cases rest with
  | nil => simp at hne
  | cons name rest => exact hs.at?_cons name rest

theorem at?_nested_laidOver_of_below (hs : s.IsScalar) (t : Setting) (h : p <+: q) (hne : q ≠ p) :
    ∃ ms, ((nested q s).laidOver t).at? p = some (.group ms) := by
  rw [at?_laidOver (nested_unambiguous hs q) t
    (isOpen_nested (fun hqp => hqp.eq_of_length (hqp.length_le.antisymm h.length_le)) s)]
  obtain ⟨rest, rfl⟩ := h
  rw [at?_nested_append]
  cases rest with
  | nil => simp at hne
  | cons name rest => exact exists_group_atop _

theorem at?_nested_laidOver_of_beside (hs : s.IsScalar) (t : Setting) (hp : ¬ p <+: q)
    (hq : ¬ q <+: p) : ((nested q s).laidOver t).at? p = t.at? p := by
  rw [at?_laidOver (nested_unambiguous hs q) t (isOpen_nested (fun h => absurd h hq) s),
    at?_nested_eq_none hp hq, atop_none_left]

end Setting

end Steward
