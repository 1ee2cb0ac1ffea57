import Steward.Config.Loading
import Steward.Proofs.Config.Layers
/-!
What variables say about single settings. The last variable counts that is for a setting or for the
whole section around it.
-/
namespace Steward.Config

namespace Environment

variable {start : String} {environment : List (String × String)} {path : List String}

/-- Whether a variable sets what is at a path, or the whole of a section around it. -/
def Governs (start : String) (path : List String) (entry : String × String) : Prop :=
  ∃ p, path? start entry.1 = some p ∧ p <+: path

instance (start : String) (path : List String) (entry : String × String) :
    Decidable (Governs start path entry) :=
  match h : path? start entry.1 with
  | none => .isFalse (by simp [Governs, h])
  | some p => decidable_of_iff (p <+: path) (by simp [Governs, h])

/-- What variables say about the setting at a path. The last one counts that governs it, and one for
a whole section says nothing about the single settings in it. -/
def saying? (start : String) (environment : List (String × String)) (path : List String) :
    Option Setting :=
  (environment.reverse.find? fun entry => Governs start path entry).bind fun entry =>
    if path? start entry.1 = some path then some (read entry.2) else none

def IsScalar (start : String) (environment : List (String × String)) : Prop :=
  ∀ entry ∈ environment, path? start entry.1 ≠ none → (read entry.2).IsScalar

theorem saying?_concat (entry : String × String) :
    saying? start (environment ++ [entry]) path =
      if Governs start path entry then
        if path? start entry.1 = some path then some (read entry.2) else none
      else saying? start environment path := by
  unfold saying?
  rw [List.reverse_append, List.reverse_singleton, List.singleton_append, List.find?_cons]
  by_cases h : Governs start path entry <;> simp [h]

theorem saying?_of_not_governs {before after : List (String × String)} {entry : String × String}
    (h : ¬ Governs start path entry) :
    saying? start (before ++ entry :: after) path = saying? start (before ++ after) path := by
  unfold saying?
  simp [h]

theorem settings_concat (entry : String × String) :
    settings start (environment ++ [entry]) =
      match setting? start entry with
      | some s => s.laidOver (settings start environment)
      | none => settings start environment := by
  unfold settings Setting.layered
  cases h : setting? start entry <;> simp [List.filterMap_append, h]

theorem setting?_eq (entry : String × String) :
    setting? start entry = (path? start entry.1).map fun p => .nested p (read entry.2) := by
  unfold setting?
  cases path? start entry.1 <;> rfl

theorem IsScalar.of_concat {entry : String × String}
    (h : IsScalar start (environment ++ [entry])) :
    IsScalar start environment ∧ (path? start entry.1 ≠ none → (read entry.2).IsScalar) :=
  ⟨fun e he => h e (by simp [he]), h entry (by simp)⟩

theorem unambiguous_settings (h : IsScalar start environment) :
    (settings start environment).Unambiguous := by
  induction environment using List.reverseRecOn with
  | nil => exact .group (by simp) (by simp)
  | append_singleton environment entry ih =>
    obtain ⟨hrest, hentry⟩ := h.of_concat
    rw [settings_concat, setting?_eq]
    cases hp : path? start entry.1 with
    | none => exact ih hrest
    | some p => exact (Setting.nested_unambiguous (hentry (by simp [hp])) p).laidOver (ih hrest)

theorem at?_settings (h : IsScalar start environment) (path : List String) :
    (settings start environment).at? path = saying? start environment path ∨
      ∃ ms, (settings start environment).at? path = some (.group ms) := by
  induction environment using List.reverseRecOn with
  | nil =>
    cases path with
    | nil => exact .inr ⟨[], rfl⟩
    | cons name path => exact .inl rfl
  | append_singleton environment entry ih =>
    obtain ⟨hrest, hentry⟩ := h.of_concat
    rw [settings_concat, setting?_eq, saying?_concat]
    cases hp : path? start entry.1 with
    | none =>
      rw [if_neg (by simp [Governs, hp])]
      exact ih hrest
    | some p =>
      have hscalar := hentry (by simp [hp])
      simp only [Option.map_some]
      by_cases hgoverns : p <+: path
      · rw [if_pos ⟨p, hp, hgoverns⟩]
        left
        by_cases heq : p = path
        · rw [heq, if_pos rfl, Setting.at?_nested_laidOver hscalar]
        · rw [if_neg (by simpa using heq)]
          exact Setting.at?_nested_laidOver_of_above hscalar _ hgoverns heq
      · rw [if_neg (by simp [Governs, hp, hgoverns])]
        by_cases hbelow : path <+: p
        · right
          refine Setting.at?_nested_laidOver_of_below hscalar _ hbelow ?_
          rintro rfl
          exact hgoverns (List.prefix_refl _)
        · rw [Setting.at?_nested_laidOver_of_beside hscalar _ hbelow hgoverns]
          exact ih hrest

theorem parts_ne_nil (s : List Char) : parts s ≠ [] := by
  unfold parts
  split
  · simp
  · simp
  · simp
  · split <;> simp

theorem ne_nil_of_path? {name : String} {p : List String} (h : path? start name = some p) :
    p ≠ [] := by
  unfold path? at h
  obtain ⟨rest, -, h⟩ := Option.bind_eq_some_iff.1 h
  dsimp only at h
  split at h
  · cases h
  · obtain rfl := Option.some.inj h
    simpa using parts_ne_nil _

theorem exists_group_settings (h : IsScalar start environment) :
    ∃ ms, settings start environment = .group ms := by
  rcases at?_settings h [] with hsaying | ⟨ms, hms⟩
  · unfold saying? at hsaying
    obtain ⟨entry, -, hentry⟩ := Option.bind_eq_some_iff.1 hsaying.symm
    split at hentry
    · rename_i hp
      exact absurd rfl (ne_nil_of_path? hp)
    · cases hentry
  · exact ⟨ms, Option.some.inj hms⟩

theorem isScalar_of_saying? (h : IsScalar start environment) {s : Setting}
    (hs : saying? start environment path = some s) : s.IsScalar := by
  obtain ⟨entry, hentry, hs⟩ := Option.bind_eq_some_iff.1 hs
  split at hs
  · rename_i hp
    obtain rfl := Option.some.inj hs
    exact h entry (by simpa using List.mem_of_find?_eq_some hentry) (by simp [hp])
  · cases hs

theorem saying?_of_forall_not (h : ∀ entry ∈ environment, ¬ Governs start path entry) :
    saying? start environment path = none := by
  unfold saying?
  rw [List.find?_eq_none.2 (by simpa using h)]
  rfl

theorem saying?_of_only {entry : String × String} (hentry : entry ∈ environment)
    (hpath : path? start entry.1 = some path)
    (honly : ∀ other ∈ environment, Governs start path other → other = entry) :
    saying? start environment path = some (read entry.2) := by
  unfold saying?
  have hgoverns : Governs start path entry := ⟨path, hpath, List.prefix_refl path⟩
  have hsome : (environment.reverse.find? fun entry => Governs start path entry).isSome := by
    rw [List.find?_isSome]
    exact ⟨entry, by simpa using hentry, by simpa using hgoverns⟩
  obtain ⟨found, hfound⟩ := Option.isSome_iff_exists.1 hsome
  obtain rfl := honly found (by simpa using List.mem_of_find?_eq_some hfound)
    (by simpa using List.find?_some hfound)
  simp [hfound, hpath]

end Environment

end Steward.Config
