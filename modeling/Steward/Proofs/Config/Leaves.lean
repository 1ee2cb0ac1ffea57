import Steward.Config.Reading
import Steward.Proofs.Config.Layers
/-!
The single settings of a configuration, and where each stands among the settings it is made from.
-/
namespace Steward.Config

def taking {α : Type} (read? : Setting → Option α) (absent : α) : Option Setting → Option α
  | some s => read? s
  | none => some absent

/-- A single setting of a configuration. -/
inductive Leaf where
  | mode
  | flag (name : String)
  | abortPolicy
  | capacity
  | maxThreads
  | jitterRatio
  | bufferMinSecs
  | bufferMaxSecs
  | maxRetry
  | waitMillis
  | backoff
  | offsetMillis
  | level
  | jsonFormat
  | fileOutput

namespace Leaf

def Value : Leaf → Type
  | mode | level => String
  | flag _ => Option Bool
  | abortPolicy => AbortPolicy
  | capacity | maxThreads | bufferMinSecs | bufferMaxSecs | waitMillis | offsetMillis => UInt64
  | jitterRatio => Number.Binary64
  | maxRetry => UInt32
  | backoff => Backoff
  | jsonFormat => Bool
  | fileOutput => Option String

/-- Where the setting stands in a file. -/
def path : Leaf → List String
  | mode => ["mode"]
  | flag name => ["flags", name]
  | abortPolicy => ["abort_policy"]
  | capacity => ["events", "capacity"]
  | maxThreads => ["blocking", "max_threads"]
  | jitterRatio => ["rotation", "jitter_ratio"]
  | bufferMinSecs => ["rotation", "buffer_min_secs"]
  | bufferMaxSecs => ["rotation", "buffer_max_secs"]
  | maxRetry => ["rotation", "max_retry"]
  | waitMillis => ["rotation", "wait_ms"]
  | backoff => ["rotation", "backoff"]
  | offsetMillis => ["rotation", "offset_ms"]
  | level => ["logging", "level"]
  | jsonFormat => ["logging", "json_format"]
  | fileOutput => ["logging", "file_output"]

def read? : (l : Leaf) → Setting → Option l.Value
  | mode | level => Setting.text?
  | flag _ => fun s => s.flag?.map some
  | abortPolicy => Setting.named? AbortPolicy.ofName?
  | capacity | maxThreads | bufferMinSecs | bufferMaxSecs | waitMillis | offsetMillis =>
    Setting.word?
  | jitterRatio => Setting.real?
  | maxRetry => Setting.halfWord?
  | backoff => Setting.named? Backoff.ofName?
  | jsonFormat => Setting.flag?
  | fileOutput => fun s => s.text?.map some

/-- The value of the setting in a configuration; that of a flag is none if the flag is not there. -/
def of : (l : Leaf) → Config → l.Value
  | mode, c => c.mode
  | flag name, c => c.flags.lookup name
  | abortPolicy, c => c.abortPolicy
  | capacity, c => c.events.capacity
  | maxThreads, c => c.blocking.maxThreads
  | jitterRatio, c => c.rotation.jitterRatio
  | bufferMinSecs, c => c.rotation.bufferMinSecs
  | bufferMaxSecs, c => c.rotation.bufferMaxSecs
  | maxRetry, c => c.rotation.maxRetry
  | waitMillis, c => c.rotation.waitMillis
  | backoff, c => c.rotation.backoff
  | offsetMillis, c => c.rotation.offsetMillis
  | level, c => c.logging.level
  | jsonFormat, c => c.logging.jsonFormat
  | fileOutput, c => c.logging.fileOutput

/-- The value of a setting, or the default if it is missing. -/
def take (l : Leaf) : Option Setting → Option l.Value := taking l.read? (l.of {})

theorem read?_group (l : Leaf) (ms : List (String × Setting)) : l.read? (.group ms) = none := by
  cases l <;> rfl

theorem eq_of_forall {c d : Config} (h : ∀ l : Leaf, l.of c = l.of d) :
    c = { d with flags := c.flags } := by
  obtain ⟨m, fs, a, ⟨e⟩, ⟨b⟩, ⟨r1, r2, r3, r4, r5, r6, r7⟩, ⟨l1, l2, l3⟩⟩ := c
  obtain rfl := h mode
  obtain rfl := h abortPolicy
  obtain rfl := h capacity
  obtain rfl := h maxThreads
  obtain rfl := h jitterRatio
  obtain rfl := h bufferMinSecs
  obtain rfl := h bufferMaxSecs
  obtain rfl := h maxRetry
  obtain rfl := h waitMillis
  obtain rfl := h backoff
  obtain rfl := h offsetMillis
  obtain rfl := h level
  obtain rfl := h jsonFormat
  obtain rfl := h fileOutput
  rfl

end Leaf

section Sections

variable {σ α : Type} {ms : List (String × Setting)} {name : String}

theorem part_group (place : Nat) (read? : Setting → Option α) (absent : α) :
    (Setting.group ms).part place name read? absent = taking read? absent (ms.lookup name) := rfl

theorem taking_section {ofSetting? : Setting → Option σ} {read? : Setting → Option α}
    {start e : σ} (get : σ → α) {inner : String}
    (hgroup : ∀ ns e, ofSetting? (.group ns) = some e →
      taking read? (get start) (ns.lookup inner) = some (get e))
    (hms : ∀ t, ms.lookup name = some t → ∃ ns, t = .group ns)
    (h : taking ofSetting? start (ms.lookup name) = some e) :
    taking read? (get start) ((Setting.group ms).at? [name, inner]) = some (get e) := by
  rw [Setting.at?]
  cases hs : ms.lookup name with
  | none =>
    rw [hs] at h
    obtain rfl := Option.some.inj h
    rfl
  | some t =>
    rw [hs] at h
    obtain ⟨ns, rfl⟩ := hms t hs
    have hgiven := hgroup ns e h
    cases hi : ns.lookup inner <;> simpa [Setting.at?, hi] using hgiven

theorem flagsOfSetting?_cons (s : Setting) :
    flagsOfSetting? (.group ((name, s) :: ms)) = do
      let b ← s.flag?
      let rest ← flagsOfSetting? (.group ms)
      return (name, b) :: rest := by
  unfold flagsOfSetting?
  dsimp only
  rw [List.mapM_cons]
  cases s.flag? <;> rfl

theorem lookup_flags {fs : List (String × Bool)} (h : flagsOfSetting? (.group ms) = some fs)
    (flag : String) :
    taking (fun s => s.flag?.map some) none (ms.lookup flag) = some (fs.lookup flag) := by
  induction ms generalizing fs with
  | nil =>
    obtain rfl : [] = fs := Option.some.inj h
    rfl
  | cons m ms ih =>
    obtain ⟨n, s⟩ := m
    rw [flagsOfSetting?_cons] at h
    obtain ⟨b, hb, h⟩ := Option.bind_eq_some_iff.1 h
    obtain ⟨rest, hrest, h⟩ := Option.bind_eq_some_iff.1 h
    obtain rfl := Option.some.inj h
    rw [List.lookup_cons, List.lookup_cons]
    by_cases hn : flag = n
    · simp [hn, taking, hb]
    · rw [beq_eq_false_iff_ne.2 hn]
      exact ih hrest

def sections : List String := ["events", "blocking", "rotation", "logging"]

def Grouped (s : Setting) : Prop := ∀ name ∈ sections, ∀ items, s.at? [name] ≠ some (.list items)

theorem exists_group_of_isSection {s : Setting} (h : s.isSection = true)
    (hlist : ∀ items, s ≠ .list items) : ∃ ms, s = .group ms := by
  cases s with
  | group ms => exact ⟨ms, rfl⟩
  | list items => exact absurd rfl (hlist items)
  | _ => cases h

theorem exists_group_of_flags {s : Setting} {fs : List (String × Bool)}
    (h : flagsOfSetting? s = some fs) : ∃ ms, s = .group ms := by
  cases s with
  | group ms => exact ⟨ms, rfl⟩
  | _ => cases h

theorem isSection_of_guard {s : Setting} {f : Unit → Option α} {a : α}
    (h : (guard s.isSection : Option Unit).bind f = some a) : s.isSection = true := by
  obtain ⟨_, hguard, -⟩ := Option.bind_eq_some_iff.1 h
  simpa [guard] using hguard

theorem events_of_group {e : Events} (h : Events.ofSetting? (.group ms) = some e) :
    taking Setting.word? ({} : Events).capacity (ms.lookup "capacity") = some e.capacity := by
  obtain ⟨capacity, hcapacity, h⟩ := Option.bind_eq_some_iff.1 h
  obtain rfl := Option.some.inj h
  exact hcapacity

theorem blocking_of_group {b : Blocking} (h : Blocking.ofSetting? (.group ms) = some b) :
    taking Setting.word? ({} : Blocking).maxThreads (ms.lookup "max_threads") =
      some b.maxThreads := by
  obtain ⟨maxThreads, hmaxThreads, h⟩ := Option.bind_eq_some_iff.1 h
  obtain rfl := Option.some.inj h
  exact hmaxThreads

theorem rotation_of_group {r : Rotation} (h : Rotation.ofSetting? (.group ms) = some r) :
    let start : Rotation := {}
    taking Setting.real? start.jitterRatio (ms.lookup "jitter_ratio") = some r.jitterRatio ∧
      taking Setting.word? start.bufferMinSecs (ms.lookup "buffer_min_secs") =
        some r.bufferMinSecs ∧
      taking Setting.word? start.bufferMaxSecs (ms.lookup "buffer_max_secs") =
        some r.bufferMaxSecs ∧
      taking Setting.halfWord? start.maxRetry (ms.lookup "max_retry") = some r.maxRetry ∧
      taking Setting.word? start.waitMillis (ms.lookup "wait_ms") = some r.waitMillis ∧
      taking (Setting.named? Backoff.ofName?) start.backoff (ms.lookup "backoff") =
        some r.backoff ∧
      taking Setting.word? start.offsetMillis (ms.lookup "offset_ms") = some r.offsetMillis := by
  obtain ⟨jitterRatio, hjitterRatio, h⟩ := Option.bind_eq_some_iff.1 h
  obtain ⟨bufferMinSecs, hbufferMinSecs, h⟩ := Option.bind_eq_some_iff.1 h
  obtain ⟨bufferMaxSecs, hbufferMaxSecs, h⟩ := Option.bind_eq_some_iff.1 h
  obtain ⟨maxRetry, hmaxRetry, h⟩ := Option.bind_eq_some_iff.1 h
  obtain ⟨waitMillis, hwaitMillis, h⟩ := Option.bind_eq_some_iff.1 h
  obtain ⟨backoff, hbackoff, h⟩ := Option.bind_eq_some_iff.1 h
  obtain ⟨offsetMillis, hoffsetMillis, h⟩ := Option.bind_eq_some_iff.1 h
  obtain rfl := Option.some.inj h
  exact ⟨hjitterRatio, hbufferMinSecs, hbufferMaxSecs, hmaxRetry, hwaitMillis, hbackoff,
    hoffsetMillis⟩

theorem logging_of_group {g : Logging} (h : Logging.ofSetting? (.group ms) = some g) :
    let start : Logging := {}
    taking Setting.text? start.level (ms.lookup "level") = some g.level ∧
      taking Setting.flag? start.jsonFormat (ms.lookup "json_format") = some g.jsonFormat ∧
      taking (fun s => s.text?.map some) start.fileOutput (ms.lookup "file_output") =
        some g.fileOutput := by
  obtain ⟨level, hlevel, h⟩ := Option.bind_eq_some_iff.1 h
  obtain ⟨jsonFormat, hjsonFormat, h⟩ := Option.bind_eq_some_iff.1 h
  obtain ⟨fileOutput, hfileOutput, h⟩ := Option.bind_eq_some_iff.1 h
  obtain rfl := Option.some.inj h
  exact ⟨hlevel, hjsonFormat, hfileOutput⟩

structure Made (ms : List (String × Setting)) (c : Config) : Prop where
  mode : taking Setting.text? ({} : Config).mode (ms.lookup "mode") = some c.mode
  flags : taking flagsOfSetting? ({} : Config).flags (ms.lookup "flags") = some c.flags
  abortPolicy : taking (Setting.named? AbortPolicy.ofName?) ({} : Config).abortPolicy
    (ms.lookup "abort_policy") = some c.abortPolicy
  events : taking Events.ofSetting? ({} : Config).events (ms.lookup "events") = some c.events
  blocking : taking Blocking.ofSetting? ({} : Config).blocking (ms.lookup "blocking") =
    some c.blocking
  rotation : taking Rotation.ofSetting? ({} : Config).rotation (ms.lookup "rotation") =
    some c.rotation
  logging : taking Logging.ofSetting? ({} : Config).logging (ms.lookup "logging") =
    some c.logging

theorem ofSetting?_eq_some_iff {c : Config} : ofSetting? (.group ms) = some c ↔ Made ms c := by
  constructor
  · intro h
    obtain ⟨mode, hmode, h⟩ := Option.bind_eq_some_iff.1 h
    obtain ⟨flags, hflags, h⟩ := Option.bind_eq_some_iff.1 h
    obtain ⟨abortPolicy, habortPolicy, h⟩ := Option.bind_eq_some_iff.1 h
    obtain ⟨events, hevents, h⟩ := Option.bind_eq_some_iff.1 h
    obtain ⟨blocking, hblocking, h⟩ := Option.bind_eq_some_iff.1 h
    obtain ⟨rotation, hrotation, h⟩ := Option.bind_eq_some_iff.1 h
    obtain ⟨logging, hlogging, h⟩ := Option.bind_eq_some_iff.1 h
    obtain rfl := Option.some.inj h
    exact ⟨hmode, hflags, habortPolicy, hevents, hblocking, hrotation, hlogging⟩
  · intro h
    simp [ofSetting?, part_group, h.mode, h.flags, h.abortPolicy, h.events, h.blocking,
      h.rotation, h.logging]

theorem at?_singleton (name : String) : (Setting.group ms).at? [name] = ms.lookup name := by
  rw [Setting.at?]
  cases ms.lookup name <;> rfl

theorem Grouped.exists_group (h : Grouped (.group ms)) (hname : name ∈ sections) {t : Setting}
    (ht : ms.lookup name = some t) (hsection : t.isSection = true) : ∃ ns, t = .group ns := by
  refine exists_group_of_isSection hsection ?_
  rintro items rfl
  exact h name hname items (by rw [at?_singleton, ht])

theorem Made.exists_group {c : Config} (h : Made ms c) (hms : Grouped (.group ms)) {l : Leaf}
    {inner : String} (hl : l.path = [name, inner]) {t : Setting} (ht : ms.lookup name = some t) :
    ∃ ns, t = .group ns := by
  have hflags := h.flags
  have hevents := h.events
  have hblocking := h.blocking
  have hrotation := h.rotation
  have hlogging := h.logging
  cases l with
  | mode | abortPolicy => cases hl
  | flag =>
    cases hl
    rw [ht] at hflags
    exact exists_group_of_flags hflags
  | capacity =>
    cases hl
    rw [ht] at hevents
    exact hms.exists_group (by decide) ht (isSection_of_guard hevents)
  | maxThreads =>
    cases hl
    rw [ht] at hblocking
    exact hms.exists_group (by decide) ht (isSection_of_guard hblocking)
  | jitterRatio | bufferMinSecs | bufferMaxSecs | maxRetry | waitMillis | backoff | offsetMillis =>
    cases hl
    rw [ht] at hrotation
    exact hms.exists_group (by decide) ht (isSection_of_guard hrotation)
  | level | jsonFormat | fileOutput =>
    cases hl
    rw [ht] at hlogging
    exact hms.exists_group (by decide) ht (isSection_of_guard hlogging)

theorem Made.take {c : Config} (h : Made ms c) (hms : Grouped (.group ms)) (l : Leaf) :
    l.take ((Setting.group ms).at? l.path) = some (l.of c) := by
  have hgroup : ∀ {name inner}, l.path = [name, inner] → ∀ t, ms.lookup name = some t →
      ∃ ns, t = .group ns := fun hl _ => h.exists_group hms hl
  cases l with
  | mode => exact (congrArg _ (at?_singleton "mode")).trans h.mode
  | abortPolicy => exact (congrArg _ (at?_singleton "abort_policy")).trans h.abortPolicy
  | flag flag =>
    exact taking_section (·.lookup flag) (fun _ _ hfs => lookup_flags hfs flag)
      (hgroup rfl) h.flags
  | capacity =>
    exact taking_section Events.capacity (fun _ _ => events_of_group) (hgroup rfl) h.events
  | maxThreads =>
    exact taking_section Blocking.maxThreads (fun _ _ => blocking_of_group) (hgroup rfl) h.blocking
  | jitterRatio =>
    exact taking_section Rotation.jitterRatio (fun _ _ hr => (rotation_of_group hr).1)
      (hgroup rfl) h.rotation
  | bufferMinSecs =>
    exact taking_section Rotation.bufferMinSecs (fun _ _ hr => (rotation_of_group hr).2.1)
      (hgroup rfl) h.rotation
  | bufferMaxSecs =>
    exact taking_section Rotation.bufferMaxSecs (fun _ _ hr => (rotation_of_group hr).2.2.1)
      (hgroup rfl) h.rotation
  | maxRetry =>
    exact taking_section Rotation.maxRetry (fun _ _ hr => (rotation_of_group hr).2.2.2.1)
      (hgroup rfl) h.rotation
  | waitMillis =>
    exact taking_section Rotation.waitMillis (fun _ _ hr => (rotation_of_group hr).2.2.2.2.1)
      (hgroup rfl) h.rotation
  | backoff =>
    exact taking_section Rotation.backoff (fun _ _ hr => (rotation_of_group hr).2.2.2.2.2.1)
      (hgroup rfl) h.rotation
  | offsetMillis =>
    exact taking_section Rotation.offsetMillis (fun _ _ hr => (rotation_of_group hr).2.2.2.2.2.2)
      (hgroup rfl) h.rotation
  | level =>
    exact taking_section Logging.level (fun _ _ hg => (logging_of_group hg).1) (hgroup rfl)
      h.logging
  | jsonFormat =>
    exact taking_section Logging.jsonFormat (fun _ _ hg => (logging_of_group hg).2.1) (hgroup rfl)
      h.logging
  | fileOutput =>
    exact taking_section Logging.fileOutput (fun _ _ hg => (logging_of_group hg).2.2) (hgroup rfl)
      h.logging

end Sections

end Steward.Config
