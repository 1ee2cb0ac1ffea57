import Steward.Proofs.Config.Leaves
import Steward.Proofs.Config.Variables
/-!
What a configuration has from where. Each of its settings alone is what the last variable for it
says, else what the file says, else its default; so a setting that is made in one place changes no
other one. A section that a file writes as a list is replaced as a whole, and a variable for a whole
section takes back the variables for its settings that stand before it.
-/
namespace Steward.Config

open Setting (atop)

theorem Leaf.path_cases (l : Leaf) :
    (∃ name, l.path = [name]) ∨ ∃ name inner, l.path = [name, inner] := by
  cases l <;> simp [Leaf.path]

section Layers

variable {start : String} {environment : List (String × String)} {file : Setting} {c : Config}

theorem isOpen_singleton (h : Environment.IsScalar start environment) (name : String) :
    (Environment.settings start environment).IsOpen [name] := by
  obtain ⟨ms, hms⟩ := Environment.exists_group_settings h
  intro q t hq hne ht
  obtain rfl : q = [] := by
    rcases List.prefix_cons_iff.1 hq with hq | ⟨rest, rfl, hrest⟩
    · exact hq
    · rw [List.prefix_nil.1 hrest] at hne
      exact absurd rfl hne
  exact ⟨ms, by rw [← hms]; exact (Option.some.inj ht).symm⟩

theorem at?_singleton_layered (h : Environment.IsScalar start environment) (name : String) :
    ((Environment.settings start environment).laidOver file).at? [name] =
      atop ((Environment.settings start environment).at? [name]) (file.at? [name]) :=
  Setting.at?_laidOver (Environment.unambiguous_settings h) file (isOpen_singleton h name)

theorem grouped_layered (h : Environment.IsScalar start environment) (hfile : Grouped file) :
    Grouped ((Environment.settings start environment).laidOver file) := by
  intro name hname items hitems
  rw [at?_singleton_layered h] at hitems
  rcases Environment.at?_settings h [name] with hsaying | ⟨ms, hms⟩
  · cases hs : Environment.saying? start environment [name] with
    | none =>
      rw [hsaying, hs, Setting.atop_none_left] at hitems
      exact hfile name hname items hitems
    | some s =>
      have hscalar := Environment.isScalar_of_saying? h hs
      rw [hsaying, hs, Setting.atop_of_isScalar hscalar] at hitems
      obtain rfl := Option.some.inj hitems
      exact hscalar
  · obtain ⟨ns, hns⟩ := Setting.exists_group_atop (file.at? [name])
    rw [hms, hns] at hitems
    cases hitems

theorem exists_group_layered (h : Environment.IsScalar start environment) (file : Setting) :
    ∃ ms, (Environment.settings start environment).laidOver file = .group ms := by
  obtain ⟨us, hus⟩ := Environment.exists_group_settings h
  obtain ⟨ms, hms⟩ := @Setting.exists_group_atop us (some file)
  exact ⟨ms, by rw [hus]; exact Option.some.inj hms⟩

theorem isOpen_path (h : Environment.IsScalar start environment) {ms : List (String × Setting)}
    (hms : (Environment.settings start environment).laidOver file = .group ms)
    (hgrouped : Grouped (.group ms)) (hmade : Made ms c) (l : Leaf) :
    (Environment.settings start environment).IsOpen l.path := by
  rcases l.path_cases with ⟨name, hl⟩ | ⟨name, inner, hl⟩
  · rw [hl]
    exact isOpen_singleton h name
  · intro q t hq hne ht
    rcases Environment.at?_settings h q with hsaying | ⟨ns, hns⟩
    · rw [hl, List.prefix_cons_iff] at hq
      obtain rfl | ⟨rest, rfl, hrest⟩ := hq
      · obtain ⟨us, hus⟩ := Environment.exists_group_settings h
        exact ⟨us, by rw [← hus]; exact (Option.some.inj ht).symm⟩
      · have hscalar := Environment.isScalar_of_saying? h (hsaying.symm.trans ht)
        obtain rfl : rest = [] := by
          rcases List.prefix_cons_iff.1 hrest with hrest | ⟨rest', rfl, hrest'⟩
          · exact hrest
          · rw [List.prefix_nil.1 hrest', hl] at hne
            exact absurd rfl hne
        refine hmade.exists_group hgrouped hl ?_
        rw [← at?_singleton, ← hms, at?_singleton_layered h, ht, Setting.atop_of_isScalar hscalar]
    · exact ⟨ns, Option.some.inj (ht.symm.trans hns)⟩

theorem take_layered (h : Environment.IsScalar start environment) (hfile : Grouped file)
    (hc : ofSetting? ((Environment.settings start environment).laidOver file) = some c)
    (l : Leaf) :
    l.take ((Environment.saying? start environment l.path).or (file.at? l.path)) =
      some (l.of c) := by
  obtain ⟨ms, hms⟩ := exists_group_layered h file
  have hgrouped : Grouped (.group ms) := hms ▸ grouped_layered h hfile
  have hmade : Made ms c := ofSetting?_eq_some_iff.1 (hms ▸ hc)
  have htake := hmade.take hgrouped l
  rw [← hms, Setting.at?_laidOver (Environment.unambiguous_settings h) file
    (isOpen_path h hms hgrouped hmade l)] at htake
  rcases Environment.at?_settings h l.path with hsaying | ⟨ns, hns⟩
  · rw [hsaying] at htake
    cases hs : Environment.saying? start environment l.path with
    | none => rwa [hs, Setting.atop_none_left] at htake
    | some s =>
      rwa [hs, Setting.atop_of_isScalar (Environment.isScalar_of_saying? h hs)] at htake
  · obtain ⟨ns', hns'⟩ := @Setting.exists_group_atop ns (file.at? l.path)
    rw [hns, hns', Leaf.take, taking, l.read?_group] at htake
    cases htake

end Layers

namespace Sources

variable {s : Sources} {file : Setting} {c : Config}

/-- A configuration is loaded whose file writes no section as a list, with single values in the
variables. -/
structure Loads (s : Sources) (file : Setting) (c : Config) : Prop where
  contents : fileSettings s.find.2 = .ok file
  grouped : Grouped file
  scalar : Environment.IsScalar s.application s.environment
  loaded : s.load.2 = .ok c

/-- What stands for a setting: what the variables say, or else what the file says. -/
def layer? (s : Sources) (file : Setting) (l : Leaf) : Option Setting :=
  (Environment.saying? s.application s.environment l.path).or (file.at? l.path)

theorem Loads.take (h : Loads s file c) (l : Leaf) : l.take (s.layer? file l) = some (l.of c) := by
  refine take_layered h.scalar h.grouped ?_ l
  have hloaded : s.combine s.find.2 = .ok c := h.loaded
  unfold combine at hloaded
  rw [h.contents] at hloaded
  simp only [bind, Except.bind] at hloaded
  split at hloaded
  · cases hloaded
  · rename_i config hconfig
    split at hloaded
    · cases hloaded
    · obtain rfl := Except.ok.inj hloaded
      exact hconfig

theorem Loads.eq_of_layer? {s' : Sources} {file' : Setting} {c' : Config} (h : Loads s file c)
    (h' : Loads s' file' c') {l : Leaf} (hl : s'.layer? file' l = s.layer? file l) :
    l.of c' = l.of c := by
  have htake := h'.take l
  rw [hl, h.take l] at htake
  exact (Option.some.inj htake).symm

theorem Loads.lookup_flags_iff (h : Loads s file c) (name : String) (b : Bool) :
    c.flags.lookup name = some b ↔ s.layer? file (.flag name) = some (.flag b) := by
  have htake := h.take (.flag name)
  cases hs : s.layer? file (.flag name) with
  | none =>
    rw [hs] at htake
    rw [show c.flags.lookup name = none from (Option.some.inj htake).symm]
    simp
  | some t =>
    rw [hs] at htake
    obtain ⟨b', hb', hflag⟩ := Option.map_eq_some_iff.1 htake
    rw [show c.flags.lookup name = some b' from hflag.symm]
    cases t with
    | flag b'' =>
      obtain rfl := Option.some.inj hb'
      simp
    | _ => cases hb'

/-- Of a configuration that is loaded, each setting alone is what the variables say of it, else what
the file says, else its default; the last variable counts that is for the setting or for the whole
section around it. So whatever changes in one place, be it a setting that nobody reads, changes no
setting but the one it is for. Flags are put together, and the configuration is valid. -/
theorem layers_count_setting_by_setting (h : Loads s file c) :
    c.IsValid ∧
    (∀ l : Leaf, l.take (s.layer? file l) = some (l.of c) ∧
      (∀ entry ∈ s.environment, Environment.path? s.application entry.1 = some l.path →
        (∀ other ∈ s.environment, Environment.Governs s.application l.path other →
          other = entry) → l.read? (Environment.read entry.2) = some (l.of c)) ∧
      ((∀ entry ∈ s.environment, ¬ Environment.Governs s.application l.path entry) →
        l.take (file.at? l.path) = some (l.of c))) ∧
    (∀ name b, c.flags.lookup name = some b ↔ s.layer? file (.flag name) = some (.flag b)) ∧
    ∀ (s' : Sources) (file' : Setting) (c' : Config), Loads s' file' c' →
      s'.application = s.application →
      (∀ before entry after, s.environment = before ++ entry :: after →
        s'.environment = before ++ after → file' = file →
        ∀ l : Leaf, ¬ Environment.Governs s.application l.path entry → l.of c' = l.of c) ∧
      (s'.environment = s.environment → ∀ l : Leaf, file'.at? l.path = file.at? l.path →
        l.of c' = l.of c) ∧
      ((∀ l : Leaf, s'.layer? file' l = s.layer? file l) → c' = { c with flags := c'.flags }) := by
  refine ⟨isValid_of_combine h.loaded, fun l => ⟨h.take l, ?_, ?_⟩, h.lookup_flags_iff, ?_⟩
  · intro entry hentry hpath honly
    have htake := h.take l
    rwa [layer?, Environment.saying?_of_only hentry hpath honly, Option.some_or] at htake
  · intro hnone
    have htake := h.take l
    rwa [layer?, Environment.saying?_of_forall_not hnone, Option.none_or] at htake
  · intro s' file' c' h' happlication
    refine ⟨?_, ?_, fun hall => Leaf.eq_of_forall fun l => h.eq_of_layer? h' (hall l)⟩
    · rintro before entry after hs hs' rfl l hl
      refine h.eq_of_layer? h' ?_
      rw [layer?, layer?, happlication, hs, hs', Environment.saying?_of_not_governs hl]
    · intro henvironment l hl
      refine h.eq_of_layer? h' ?_
      rw [layer?, layer?, happlication, henvironment, hl]

theorem exists_loaded {α : Type} {f : Config → α} {a : α}
    (h : s.load.2.toOption.map f = some a) : ∃ c, s.load.2 = .ok c ∧ f c = a := by
  obtain ⟨c, hc, hf⟩ := Option.map_eq_some_iff.1 h
  cases hl : s.load.2 with
  | error fault =>
    rw [hl] at hc
    cases hc
  | ok c' =>
    rw [hl] at hc
    obtain rfl := Option.some.inj hc
    exact ⟨c', rfl, hf⟩

/-- A file that says how often and after what wait a rotation is tried again. -/
def rotationFile : String := "[rotation]\nmax_retry = 3\nwait_ms = 5\n"

/-- Besides the file there are variables for the wait and for a flag. -/
def fileAndVariables : Sources where
  named := some ⟨"app.toml", some rotationFile⟩
  environment := [("NOTIFYR_ROTATION__WAIT_MS", "7"), ("NOTIFYR_FLAGS__FAST", "true")]

theorem layers_count_setting_by_setting_fileAndVariables :
    ∃ file c, Loads fileAndVariables file c ∧ c.rotation.waitMillis = 7 ∧
      c.rotation.maxRetry = 3 ∧ c.flags.lookup "fast" = some true ∧ c.events.capacity = 256 := by
  have hread : (Toml.read? rotationFile).any (fun t =>
      sections.all fun name => (t.at? [name]).all fun u => !u matches .list _) = true := by
    decide +kernel
  have hload : (fileAndVariables.load.2.toOption.map fun _ => ()) = some () := by decide +kernel
  obtain ⟨file, hfile, hsections⟩ := (Option.any_eq_true _ _).1 hread
  obtain ⟨c, hc, -⟩ := exists_loaded hload
  have hcontents : fileSettings fileAndVariables.find.2 = .ok file := by
    show fileSettings (some rotationFile) = .ok file
    rw [fileSettings, hfile]
  have hgrouped : Grouped file := by
    intro name hname items hitems
    have hall := List.all_eq_true.1 hsections name hname
    rw [hitems] at hall
    cases hall
  have hloads : Loads fileAndVariables file c := by
    refine ⟨hcontents, hgrouped, fun entry hentry _ => ?_, hc⟩
    rcases List.mem_cons.1 hentry with rfl | hentry
    · trivial
    · rw [List.mem_singleton.1 hentry]
      trivial
  obtain ⟨-, hleaf, -, -⟩ := layers_count_setting_by_setting hloads
  refine ⟨file, c, hloads, ?_, ?_, ?_, ?_⟩
  · have hwait := (hleaf .waitMillis).2.1 ("NOTIFYR_ROTATION__WAIT_MS", "7") (by decide)
      (by decide +kernel) (by decide +kernel)
    have hseven : Setting.word? (Environment.read "7") = some 7 := by decide +kernel
    exact Option.some.inj (hwait.symm.trans hseven)
  · have hretry := (hleaf .maxRetry).2.2 (by decide +kernel)
    have hthree : ((Toml.read? rotationFile).bind fun t =>
        taking Setting.halfWord? 2 (t.at? ["rotation", "max_retry"])) = some 3 := by decide +kernel
    rw [hfile] at hthree
    exact Option.some.inj (hretry.symm.trans hthree)
  · have hfast := (hleaf (.flag "fast")).2.1 ("NOTIFYR_FLAGS__FAST", "true") (by decide)
      (by decide +kernel) (by decide +kernel)
    have htrue : (Setting.flag? (Environment.read "true")).map some = some (some true) := by
      decide +kernel
    exact Option.some.inj (hfast.symm.trans htrue)
  · have hcapacity := (hleaf .capacity).2.2 (by decide +kernel)
    have hdefault : ((Toml.read? rotationFile).bind fun t =>
        taking Setting.word? 256 (t.at? ["events", "capacity"])) = some 256 := by decide +kernel
    rw [hfile] at hdefault
    exact Option.some.inj (hcapacity.symm.trans hdefault)

/-- A variable for one setting may change another one, if the file writes the section of both as a
list. The name of a variable may also part the names of a path with a point, and a variable for a
whole section takes back one that stands before it. -/
theorem settings_may_not_layer_singly :
    (¬ ∀ (s : Sources) (entry : String × String) (c c' : Config) (k l : Leaf),
      s.load.2 = .ok c →
      ({ s with environment := s.environment ++ [entry] } : Sources).load.2 = .ok c' →
      Environment.path? s.application entry.1 = some k.path → k.path ≠ l.path →
      l.of c' = l.of c) ∧
    (∃ c, ({ environment := [("NOTIFYR_EVENTS.CAPACITY", "7")] } : Sources).load.2 = .ok c ∧
      c.events.capacity = 7) ∧
    ∃ c, ({ environment := [("NOTIFYR_ROTATION__MAX_RETRY", "3"), ("NOTIFYR_rotation", "5"),
      ("NOTIFYR_rotation__wait_ms", "7")] } : Sources).load.2 = .ok c ∧
      c.rotation.maxRetry = 2 := by
  refine ⟨fun hall => ?_, exists_loaded (by decide +kernel), exists_loaded (by decide +kernel)⟩
  let listed : Sources := { named := some ⟨"app.toml", some "rotation = [0.5]"⟩ }
  let entry := ("NOTIFYR_ROTATION__MAX_RETRY", "7")
  have hbefore : (listed.load.2.toOption.map (·.rotation.jitterRatio)) =
      some (.ofDecimal false 5 (-1)) := by decide +kernel
  have hafter : (({ listed with environment := [entry] } : Sources).load.2.toOption.map
      (·.rotation.jitterRatio)) = some (.ofDecimal false 8 (-2)) := by decide +kernel
  obtain ⟨c, hc, hratio⟩ := exists_loaded hbefore
  obtain ⟨c', hc', hratio'⟩ := exists_loaded hafter
  have heq := hall listed entry c c' .maxRetry .jitterRatio hc hc' (by decide +kernel) (by decide)
  exact absurd (hratio'.symm.trans (heq.trans hratio)) (by decide +kernel)

end Sources

end Steward.Config
