import Steward.Config.Document
import Steward.Config.Loading
import Steward.Proofs.Config.Leaves
import Steward.Proofs.Sequence
import Steward.Proofs.Toml.Documents
/-!
Saving a configuration and loading it again. The document that a configuration is saved as gives it
back, unless one of its whole numbers has all 64 bits: a document is written with it, and cannot be
read again.
-/
namespace Steward.Config

open Number (Binary64 Canonical)
open Toml (Texts Readings)

variable {c : Config} {s : Sources}

def Events.settings (e : Events) : List (String × Setting) :=
  [("capacity", .whole e.capacity.toNat)]

def Blocking.settings (b : Blocking) : List (String × Setting) :=
  [("max_threads", .whole b.maxThreads.toNat)]

def Rotation.settings (r : Rotation) : List (String × Setting) :=
  [("jitter_ratio", .real r.jitterRatio),
    ("buffer_min_secs", .whole r.bufferMinSecs.toNat),
    ("buffer_max_secs", .whole r.bufferMaxSecs.toNat),
    ("max_retry", .whole r.maxRetry.toNat),
    ("wait_ms", .whole r.waitMillis.toNat),
    ("backoff", .text r.backoff.name),
    ("offset_ms", .whole r.offsetMillis.toNat)]

def Logging.settings (l : Logging) : List (String × Setting) :=
  [("level", .text l.level), ("json_format", .flag l.jsonFormat)]
    ++ (l.fileOutput.map fun path => ("file_output", .text path)).toList

def rootSettings (c : Config) : List (String × Setting) :=
  [("mode", .text c.mode), ("abort_policy", .text c.abortPolicy.name)]

def tableSettings (c : Config) : List (String × List (String × Setting)) :=
  [("flags", c.flags.map fun f => (f.1, .flag f.2)), ("events", c.events.settings),
    ("blocking", c.blocking.settings), ("rotation", c.rotation.settings),
    ("logging", c.logging.settings)]

def settings (c : Config) : List (String × Setting) :=
  c.rootSettings ++ c.tableSettings.map fun t => (t.1, .group t.2)

def wholeNumbers (c : Config) : List (String × String × UInt64) :=
  [("events", "capacity", c.events.capacity), ("blocking", "max_threads", c.blocking.maxThreads),
    ("rotation", "buffer_min_secs", c.rotation.bufferMinSecs),
    ("rotation", "buffer_max_secs", c.rotation.bufferMaxSecs),
    ("rotation", "wait_ms", c.rotation.waitMillis),
    ("rotation", "offset_ms", c.rotation.offsetMillis)]

/-- The whole numbers can be read again: they have 64 bits with a sign. -/
def Fits (c : Config) : Prop := ∀ n ∈ c.wholeNumbers, n.2.2.toNat < 2 ^ 63

instance (c : Config) : Decidable c.Fits := by
  unfold Fits
  infer_instance

def readBack? : Setting → Option Setting
  | .whole n => if n < 2 ^ 63 then some (.whole n) else none
  | s => some s

def readings (ms : List (String × Setting)) : Readings := ms.map fun m => (m.1, readBack? m.2)

theorem names_readings (ms : List (String × Setting)) :
    (readings ms).map (·.1) = ms.map (·.1) := by
  simp [readings]

theorem mem_readings {ms : List (String × Setting)} {x : String} {t : Setting} (h : (x, t) ∈ ms) :
    (x, readBack? t) ∈ readings ms := List.mem_map.2 ⟨_, h, rfl⟩

/-- What is read where every text is read as the setting that it was written for. -/
def asWritten (ms : List (String × Setting)) : Readings := ms.map fun m => (m.1, some m.2)

theorem settled_asWritten (ms : List (String × Setting)) : Toml.settled (asWritten ms) = some ms := by
  induction ms with
  | nil => rfl
  | cons m ms ih =>
    show Toml.settled ((m.1, some m.2) :: asWritten ms) = _
    rw [Toml.settled_some, ih, Option.map_some]

theorem readings_eq_asWritten {ms : List (String × Setting)}
    (h : ∀ m ∈ ms, readBack? m.2 = some m.2) : readings ms = asWritten ms :=
  List.map_congr_left fun m hm => by rw [h m hm]

def tableReadings (ts : List (String × List (String × Setting))) : List (String × Readings) :=
  ts.map fun t => (t.1, readings t.2)

def tablesAsWritten (ts : List (String × List (String × Setting))) : List (String × Readings) :=
  ts.map fun t => (t.1, asWritten t.2)

theorem settledTables_asWritten (ts : List (String × List (String × Setting))) :
    Toml.settledTables (tablesAsWritten ts) = some ts := by
  induction ts with
  | nil => rfl
  | cons t ts ih =>
    show Toml.settledTables ((t.1, asWritten t.2) :: tablesAsWritten ts) = _
    rw [Toml.settledTables_cons, settled_asWritten, ih]
    rfl

section Spells

open Toml

theorem spells_whole (n : Nat) : Spells (toString n).toList (readBack? (.whole n)) := by
  have hread := spells_natural n
  have hlt : (n : Int) < 2 ^ 63 ↔ n < 2 ^ 63 := by omega
  unfold readBack?
  simpa only [hlt] using hread

theorem spells_flags (flags : List (String × Bool)) :
    SpellsAll (flags.map fun f => (f.1, truthText f.2))
      (readings (flags.map fun f => (f.1, .flag f.2))) := by
  induction flags with
  | nil => exact .nil
  | cons f flags ih => exact .cons (spells_truthText f.2) ih

theorem spells_rotation {r : Rotation} {negative : Bool} {m : Nat} {e : Int} {h : Canonical m e}
    (hr : r.jitterRatio = .finite negative m e h) : SpellsAll r.entries (readings r.settings) := by
  have hratio := spells_realText negative h
  rw [← hr] at hratio
  exact .cons hratio <| .cons (spells_whole r.bufferMinSecs.toNat) <|
    .cons (spells_whole r.bufferMaxSecs.toNat) <| .cons (spells_whole r.maxRetry.toNat) <|
    .cons (spells_whole r.waitMillis.toNat) <| .cons (spells_stringText r.backoff.name) <|
    .cons (spells_whole r.offsetMillis.toNat) .nil

theorem spells_logging (l : Logging) : SpellsAll l.entries (readings l.settings) := by
  have hlevel := spells_stringText l.level
  have hformat := spells_truthText l.jsonFormat
  unfold Logging.entries Logging.settings
  cases l.fileOutput with
  | none => exact .cons hlevel <| .cons hformat .nil
  | some path => exact .cons hlevel <| .cons hformat <| .cons (spells_stringText path) .nil

end Spells

def rootTexts (c : Config) : Texts :=
  [("mode", Toml.stringText c.mode), ("abort_policy", Toml.stringText c.abortPolicy.name)]

def tableTexts (c : Config) : List (String × Texts) :=
  [("flags", c.flags.map fun f => (f.1, Toml.truthText f.2)), ("events", c.events.entries),
    ("blocking", c.blocking.entries), ("rotation", c.rotation.entries),
    ("logging", c.logging.entries)]

theorem document_eq (c : Config) :
    c.document = String.ofList (Toml.documentText c.rootTexts c.tableTexts) := by
  simp [document, Toml.documentText, Toml.linesText, rootTexts, tableTexts]

theorem spells_root (c : Config) : Toml.SpellsAll c.rootTexts (readings c.rootSettings) :=
  .cons (Toml.spells_stringText c.mode) <| .cons (Toml.spells_stringText c.abortPolicy.name) .nil

theorem spells_tables {negative : Bool} {m : Nat} {e : Int} {h : Canonical m e}
    (hr : c.rotation.jitterRatio = .finite negative m e h) :
    List.Forall₂ (fun t g => t.1 = g.1 ∧ Toml.SpellsAll t.2 g.2) c.tableTexts
      (tableReadings c.tableSettings) :=
  .cons ⟨rfl, spells_flags c.flags⟩ <|
    .cons ⟨rfl, .cons (spells_whole c.events.capacity.toNat) .nil⟩ <|
    .cons ⟨rfl, .cons (spells_whole c.blocking.maxThreads.toNat) .nil⟩ <|
    .cons ⟨rfl, spells_rotation hr⟩ <| .cons ⟨rfl, spells_logging c.logging⟩ .nil

theorem readBack?_whole {n : Nat} (h : n < 2 ^ 63) :
    readBack? (.whole n) = some (.whole n) := by
  have hlt : (n : Int) < 2 ^ 63 := by omega
  simp only [readBack?, hlt, if_true]

theorem readBack?_of_fits (h : c.Fits) :
    ∀ t ∈ c.tableSettings, ∀ m ∈ t.2, readBack? m.2 = some m.2 := by
  have hread : ∀ n ∈ c.wholeNumbers, readBack? (.whole n.2.2.toNat) = some (.whole n.2.2.toNat) :=
    fun n hn => readBack?_whole (h n hn)
  simp only [wholeNumbers, List.forall_mem_cons] at hread
  obtain ⟨hcapacity, hthreads, hmin, hmax, hwait, hoffset, -⟩ := hread
  have hretry := readBack?_whole (Nat.lt_trans c.rotation.maxRetry.toNat_lt (by decide))
  unfold tableSettings
  simp only [List.forall_mem_cons]
  refine ⟨?_, List.forall_mem_singleton.2 hcapacity, List.forall_mem_singleton.2 hthreads, ?_, ?_,
    by simp⟩
  · intro m hm
    obtain ⟨f, -, rfl⟩ := List.mem_map.1 hm
    rfl
  · unfold Rotation.settings
    simp only [List.forall_mem_cons]
    exact ⟨rfl, hmin, hmax, hretry, hwait, rfl, hoffset, by simp⟩
  · unfold Logging.settings
    cases c.logging.fileOutput <;> simp [readBack?]

theorem exists_setting (c : Config) : ∀ n ∈ c.wholeNumbers,
    ∃ ms, (n.1, ms) ∈ c.tableSettings ∧ (n.2.1, .whole n.2.2.toNat) ∈ ms := by
  simp [wholeNumbers, tableSettings, Events.settings, Blocking.settings, Rotation.settings]

theorem settledTables_of_not_fits (h : ¬ c.Fits) :
    Toml.settledTables (tableReadings c.tableSettings) = none := by
  unfold Fits at h
  push Not at h
  obtain ⟨n, hn, hlarge⟩ := h
  obtain ⟨ms, htable, hsetting⟩ := c.exists_setting n hn
  have hnone : readBack? (.whole n.2.2.toNat) = none := by
    have hlt : ¬ (n.2.2.toNat : Int) < 2 ^ 63 := by omega
    simp only [readBack?, hlt, if_false]
  have hreadings : (n.1, readings ms) ∈ tableReadings c.tableSettings :=
    List.mem_map.2 ⟨_, htable, rfl⟩
  have hreading := mem_readings hsetting
  rw [hnone] at hreading
  exact Toml.settledTables_eq_none hreadings hreading

/-- The reader of documents gives back every value of this one as it was written. -/
structure ReadsBack (c : Config) : Prop where
  root : Toml.SpellsAll c.rootTexts (asWritten c.rootSettings)
  tables : List.Forall₂ (fun t g => t.1 = g.1 ∧ Toml.SpellsAll t.2 g.2) c.tableTexts
    (tablesAsWritten c.tableSettings)

theorem tableReadings_of_fits (h : c.Fits) :
    tableReadings c.tableSettings = tablesAsWritten c.tableSettings :=
  List.map_congr_left fun t ht => by rw [readings_eq_asWritten (readBack?_of_fits h t ht)]

theorem readsBack_iff {negative : Bool} {m : Nat} {e : Int} {h : Canonical m e}
    (hr : c.rotation.jitterRatio = .finite negative m e h) : c.ReadsBack ↔ c.Fits := by
  constructor
  · intro hback
    by_contra hfits
    have hsame : tableReadings c.tableSettings = tablesAsWritten c.tableSettings :=
      List.right_unique_forall₂' (fun t f g hf hg =>
        Prod.ext (hf.1.symm.trans hg.1) (Toml.rightUnique_spellsAll hf.2 hg.2))
        (spells_tables hr) hback.tables
    have hnone := settledTables_of_not_fits hfits
    rw [hsame, settledTables_asWritten] at hnone
    cases hnone
  · exact fun hfits => ⟨c.spells_root, tableReadings_of_fits hfits ▸ spells_tables hr⟩

theorem nodup_names (c : Config) : ((readings c.rootSettings).map (·.1)
    ++ (tableReadings c.tableSettings).map (·.1)).Nodup := by
  show ["mode", "abort_policy", "flags", "events", "blocking", "rotation", "logging"].Nodup
  decide

theorem nodup_section (hflags : (c.flags.map (·.1)).Nodup) :
    ∀ t ∈ c.tableSettings, (t.2.map (·.1)).Nodup := by
  unfold tableSettings
  simp only [List.forall_mem_cons]
  refine ⟨?_, List.nodup_singleton _, List.nodup_singleton _, ?_, ?_, by simp⟩
  · rw [List.map_map]
    exact hflags
  · show ["jitter_ratio", "buffer_min_secs", "buffer_max_secs", "max_retry", "wait_ms", "backoff",
      "offset_ms"].Nodup
    decide
  · unfold Logging.settings
    cases c.logging.fileOutput <;> simp

theorem nodup_inner (hflags : (c.flags.map (·.1)).Nodup) :
    ∀ g ∈ tableReadings c.tableSettings, (g.2.map (·.1)).Nodup := by
  intro g hg
  obtain ⟨t, ht, rfl⟩ := List.mem_map.1 hg
  rw [names_readings]
  exact nodup_section hflags t ht

theorem unmarked (c : Config) :
    (Toml.documentText c.rootTexts c.tableTexts).head? ≠ some '\ufeff' := by
  have hname : Toml.nameText "mode" = ['m', 'o', 'd', 'e'] := by decide +kernel
  simp [Toml.documentText, Toml.linesText, rootTexts, Toml.assignmentLine, hname]

theorem read?_document (hflags : (c.flags.map (·.1)).Nodup) {negative : Bool} {m : Nat} {e : Int}
    {h : Canonical m e} (hr : c.rotation.jitterRatio = .finite negative m e h) :
    Toml.read? c.document = if c.Fits then some (.group c.settings) else none := by
  rw [document_eq, Toml.read?_documentText (spells_root c) (spells_tables hr) (nodup_names c)
    (nodup_inner hflags) (unmarked c)]
  split
  · rename_i hfits
    rw [tableReadings_of_fits hfits, settledTables_asWritten]
    rfl
  · rename_i hfits
    rw [settledTables_of_not_fits hfits]
    rfl

theorem flags_of_settings (flags : List (String × Bool)) :
    flagsOfSetting? (.group (flags.map fun f => (f.1, .flag f.2))) = some flags := by
  induction flags with
  | nil => rfl
  | cons f flags ih =>
    rw [List.map_cons, flagsOfSetting?_cons, ih]
    rfl

theorem word?_whole (n : UInt64) : Setting.word? (.whole n.toNat) = some n := by
  have hn := n.toNat_lt
  unfold Setting.word? Setting.natural?
  simp only
  rw [if_pos (by omega)]
  simp

theorem halfWord?_whole (n : UInt32) : Setting.halfWord? (.whole n.toNat) = some n := by
  have hn := n.toNat_lt
  unfold Setting.halfWord? Setting.natural?
  simp only
  rw [if_pos (by omega)]
  simp

theorem events_of_settings (e : Events) :
    Events.ofSetting? (.group e.settings) = some e := by
  simp [Events.ofSetting?, Events.settings, part_group, taking, word?_whole, Setting.isSection]

theorem blocking_of_settings (b : Blocking) :
    Blocking.ofSetting? (.group b.settings) = some b := by
  simp [Blocking.ofSetting?, Blocking.settings, part_group, taking, word?_whole, Setting.isSection]

theorem backoff_of_name (b : Backoff) :
    Setting.named? Backoff.ofName? (.text b.name) = some b := by
  cases b <;> rfl

theorem rotation_of_settings (r : Rotation) :
    Rotation.ofSetting? (.group r.settings) = some r := by
  simp [Rotation.ofSetting?, Rotation.settings, part_group, taking, word?_whole, halfWord?_whole,
    Setting.isSection, List.lookup_cons, Setting.real?, backoff_of_name]

theorem logging_of_settings (l : Logging) : Logging.ofSetting? (.group l.settings) = some l := by
  obtain ⟨level, jsonFormat, fileOutput⟩ := l
  unfold Logging.settings
  cases fileOutput <;>
    simp [Logging.ofSetting?, part_group, taking, Setting.isSection, List.lookup_cons,
      Setting.text?, Setting.flag?]

theorem lookup_settings (c : Config) :
    ∀ t ∈ c.tableSettings, c.settings.lookup t.1 = some (.group t.2) := by
  simp [settings, rootSettings, tableSettings, List.lookup_cons]

theorem made_settings (c : Config) : Made c.settings c := by
  have hlookup := c.lookup_settings
  simp only [tableSettings, List.forall_mem_cons] at hlookup
  obtain ⟨hflags, hevents, hblocking, hrotation, hlogging, -⟩ := hlookup
  constructor
  case mode => rfl
  case flags => rw [hflags, taking, flags_of_settings]
  case abortPolicy =>
    show AbortPolicy.ofName? c.abortPolicy.name = some c.abortPolicy
    cases c.abortPolicy <;> rfl
  case events => rw [hevents, taking, events_of_settings]
  case blocking => rw [hblocking, taking, blocking_of_settings]
  case rotation => rw [hrotation, taking, rotation_of_settings]
  case logging => rw [hlogging, taking, logging_of_settings]

theorem holds_of_demand {holds : Bool} {f : Fault}
    (h : (if holds then .ok () else .error f : Except Fault Unit) = .ok ()) : holds = true := by
  cases holds with
  | true => rfl
  | false => cases h

theorem isValid_of_isOk (h : c.validate.isOk = true) : c.IsValid := by
  unfold IsValid
  cases hc : c.validate with
  | error f =>
    rw [hc] at h
    cases h
  | ok u => rfl

theorem ratio_of_isValid (h : c.IsValid) :
    (!c.rotation.jitterRatio.lt .zero && c.rotation.jitterRatio.lt (.ofNat 1)) = true := by
  obtain ⟨-, -, h⟩ := bind_eq_ok.1 h
  obtain ⟨-, -, h⟩ := bind_eq_ok.1 h
  obtain ⟨-, -, h⟩ := bind_eq_ok.1 h
  obtain ⟨⟨⟩, hrotation, -⟩ := bind_eq_ok.1 h
  obtain ⟨⟨⟩, hratio, -⟩ := bind_eq_ok.1 hrotation
  exact holds_of_demand hratio

theorem exists_finite_ratio (h : c.IsValid) : ∃ negative m e, ∃ h : Canonical m e,
    c.rotation.jitterRatio = .finite negative m e h := by
  have hratio := ratio_of_isValid h
  have hone : Binary64.ofNat 1 = .finite false (2 ^ 52) (-52) (by decide) := by decide +kernel
  rw [hone] at hratio
  cases hr : c.rotation.jitterRatio with
  | finite negative m e h => exact ⟨negative, m, e, h, rfl⟩
  | infinite negative =>
    rw [hr] at hratio
    cases negative <;> cases hratio
  | nan =>
    rw [hr] at hratio
    cases hratio

theorem laidOver_empty (ms : List (String × Setting)) :
    (Setting.group []).laidOver (.group ms) = .group ms := by
  rw [Setting.laidOver, Setting.membersOver]

theorem settings_eq_empty
    (h : ∀ entry ∈ s.environment, Environment.path? s.application entry.1 = none) :
    Environment.settings s.application s.environment = .group [] := by
  have hnone : s.environment.filterMap (Environment.setting? s.application) = [] := by
    rw [List.filterMap_eq_nil_iff]
    intro entry hentry
    rw [Environment.setting?, h entry hentry]
    rfl
  rw [Environment.settings, hnone]
  rfl

theorem fileSettings_document (hvalid : c.IsValid) (hflags : (c.flags.map (·.1)).Nodup) :
    Sources.fileSettings (some c.document) =
      if c.Fits then .ok (.group c.settings) else .error (Sources.unfit "malformed document") := by
  obtain ⟨negative, m, e, h, hr⟩ := exists_finite_ratio hvalid
  rw [Sources.fileSettings, read?_document hflags hr]
  by_cases hfits : c.Fits
  · rw [if_pos hfits, if_pos hfits]
  · rw [if_neg hfits, if_neg hfits]

/-- What is loaded from a file with the document of a configuration, without any variables. -/
theorem load_document {path : String} (hvalid : c.IsValid) (hflags : (c.flags.map (·.1)).Nodup)
    (hnamed : s.named = some ⟨path, some c.document⟩)
    (henvironment : ∀ entry ∈ s.environment, Environment.path? s.application entry.1 = none) :
    s.load.2 = if c.Fits then .ok c else .error (Sources.unfit "malformed document") := by
  have hfind : s.find.2 = some c.document := by rw [Sources.find, hnamed]
  have hmade : ofSetting? (.group c.settings) = some c := ofSetting?_eq_some_iff.2 c.made_settings
  have hvalidate : c.validate = .ok () := hvalid
  show s.combine s.find.2 = _
  rw [hfind, Sources.combine, fileSettings_document hvalid hflags]
  by_cases hfits : c.Fits
  · rw [if_pos hfits, if_pos hfits]
    simp only [bind, Except.bind, settings_eq_empty henvironment, laidOver_empty, hmade, hvalidate]
    rfl
  · rw [if_neg hfits, if_neg hfits]
    rfl

/-- A valid configuration that was saved is loaded from its file as it was, if no variable says
anything and every value is read back as it was written. It is read back so exactly when the whole
numbers have 64 bits with a sign, and otherwise the file cannot be read. -/
theorem saved_config_loads_iff {text path : String} {canWrite : Bool} (hvalid : c.IsValid)
    (hflags : (c.flags.map (·.1)).Nodup) (hsave : c.save canWrite = .ok text)
    (hnamed : s.named = some ⟨path, some text⟩)
    (henvironment : ∀ entry ∈ s.environment, Environment.path? s.application entry.1 = none) :
    (s.load.2 = .ok c ↔ c.ReadsBack) ∧ (c.ReadsBack ↔ c.Fits) ∧
      (¬ c.Fits → s.load.2 = .error (Sources.unfit "malformed document")) := by
  have htext : text = c.document := by
    cases canWrite with
    | true => exact (Except.ok.inj hsave).symm
    | false => cases hsave
  have hload := load_document hvalid hflags (htext ▸ hnamed) henvironment
  obtain ⟨negative, m, e, h, hr⟩ := exists_finite_ratio hvalid
  have hback : c.ReadsBack ↔ c.Fits := readsBack_iff hr
  by_cases hfits : c.Fits
  · rw [hload, if_pos hfits]
    exact ⟨iff_of_true rfl (hback.2 hfits), hback, fun h => absurd hfits h⟩
  · rw [hload, if_neg hfits]
    exact ⟨iff_of_false nofun fun h => hfits (hback.1 h), hback, fun _ => rfl⟩

def production : Config where
  mode := "production"
  flags := [("web hooks", false)]
  rotation := { backoff := .linear }
  logging := { fileOutput := some "log/app" }

theorem saved_config_loads_iff_production : ∃ text, production.save true = .ok text ∧
    production.ReadsBack ∧
    ({ named := some ⟨"app.toml", some text⟩ } : Sources).load.2 = .ok production := by
  have hvalid : production.IsValid := isValid_of_isOk (by decide +kernel)
  have hsave : production.save true = .ok production.document := rfl
  let s : Sources := { named := some ⟨"app.toml", some production.document⟩ }
  have hnamed : s.named = some ⟨"app.toml", some production.document⟩ := rfl
  obtain ⟨hloads, hback, -⟩ :=
    saved_config_loads_iff hvalid (by decide) hsave hnamed (by simp [s])
  have hproduction : production.ReadsBack := hback.2 (by decide)
  exact ⟨_, hsave, hproduction, hloads.2 hproduction⟩

def capacious : Config := { events := { capacity := 9223372036854775808 } }

theorem saved_config_may_not_load : capacious.IsValid ∧ ∃ text, capacious.save true = .ok text ∧
    ({ named := some ⟨"app.toml", some text⟩ } : Sources).load.2 ≠ .ok capacious := by
  have hvalid : capacious.IsValid := isValid_of_isOk (by decide +kernel)
  let s : Sources := { named := some ⟨"app.toml", some capacious.document⟩ }
  have hnamed : s.named = some ⟨"app.toml", some capacious.document⟩ := rfl
  have hload := load_document hvalid List.nodup_nil hnamed (by simp [s])
  rw [if_neg (by decide)] at hload
  refine ⟨hvalid, _, rfl, ?_⟩
  rw [hload]
  exact nofun

end Steward.Config
