import Mathlib.Data.List.Perm.Basic
import Mathlib.Tactic.MkIffOfInductiveProp
import Steward.Change
import Steward.Proofs.Json.Giving
/-!
How a change may be written. Its object is read for what each field means: the order of the
members, the blanks between tokens and members of other names do not count, and a field that holds
its default may as well be left out. A field that has no default must be there, and none may be
there twice.
-/
namespace Steward.Change

open Json (Reader Spelling Glyph LaidOut)
open Json.Reader

variable {α : Type}

/-- A number of 32 bits. -/
def token? (v : Spelling) : Option Token :=
  (v.natural? (2 ^ 32)).map fun n => ⟨UInt32.ofNat n⟩

def status? (v : Spelling) : Option Status := v.named? Status.ofName?

def filled (slot : Option α) (value? : Option α) (put : α → Draft) : Option Draft :=
  if slot.isSome then none else value?.map put

/-- What becomes of a draft with the value of a key. -/
def meaning (key : String) (d : Draft) (v : Spelling) : Option Draft :=
  match key with
  | "component" => filled d.component v.text? fun x => { d with component := some x }
  | "id" => filled d.id (v.optional? Spelling.text?) fun x => { d with id := some x }
  | "status" => filled d.status (status? v) fun x => { d with status := some x }
  | "to_destroy" => filled d.toDestroy v.bool? fun x => { d with toDestroy := some x }
  | "to_build" => filled d.toBuild v.bool? fun x => { d with toBuild := some x }
  | "build_token" => filled d.buildToken (v.optional? token?) fun x =>
    { d with buildToken := some x }
  | _ => some d

theorem exists_filled_iff {slot value? : Option α} {put : α → Draft} {P : Draft → Prop} :
    (∃ next, filled slot value? put = some next ∧ P next) ↔
      slot = none ∧ ∃ a, value? = some a ∧ P (put a) := by
  cases slot <;> cases value? <;> simp [filled]

theorem means_fill {slot : Option α} {r : Reader α} {v : Spelling} {value? : Option α}
    {put : α → Draft} (h : Gives r v value?) (d : Draft) :
    (KeyPlan.fill slot r put).Means d v (filled slot value? put) := by
  rw [KeyPlan.fill, filled]
  split
  · exact .repeated d v
  · exact .read (h.map put)

theorem gives_token (v : Spelling) : Gives Token.reader v (token? v) := by
  have hreader : Token.reader = (fun n => ⟨UInt32.ofNat n⟩) <$> natural (2 ^ 32) := rfl
  rw [hreader]
  exact (gives_natural v (by decide)).map _

theorem plan_means (key : String) (d : Draft) (v : Spelling) :
    (plan key d).Means d v (meaning key d v) := by
  unfold plan
  split
  · exact means_fill (gives_string v) d
  · exact means_fill (gives_optional (gives_string v)) d
  · exact means_fill (gives_named v) d
  · exact means_fill (gives_bool v) d
  · exact means_fill (gives_bool v) d
  · exact means_fill (gives_optional (gives_token v)) d
  · rw [meaning]
    · exact .ignore d v
    all_goals assumption

theorem toOption_decode_object {ms : List Spelling.Member} {text : String}
    (htext : LaidOut (Spelling.object ms).tokens text.toList) :
    (decode text).toOption = (ms.foldlM (take meaning) {}).bind Draft.complete := by
  have hdecode := Json.toOption_decode (gives_record plan_means ms {} Draft.complete fields) htext
  rw [← hdecode, decode, reader]
  cases Json.decode (record plan {} Draft.complete fields) text <;> rfl

/-- The names of the fields of a change. -/
def fieldNames : List String :=
  ["component", "id", "status", "to_destroy", "to_build", "build_token"]

/-- The member has this name, however it is spelled. A key with half of a surrogate pair in it spells
no name. -/
def Named (m : Spelling.Member) (name : String) : Prop := Glyph.text? m.1 = some name

instance (m : Spelling.Member) (name : String) : Decidable (Named m name) :=
  inferInstanceAs (Decidable (_ = _))

def valuesOf (name : String) (ms : List Spelling.Member) : List Spelling :=
  (ms.filter fun m => Named m name).map (·.2)

/-- The values of a field settle it: there is one and it means this, or there is none and the slot
was filled before or has a default. -/
def Settles (read? : Spelling → Option α) (slot default? : Option α) : List Spelling → α → Prop
  | [], a => slot.or default? = some a
  | [v], a => slot = none ∧ read? v = some a
  | _, _ => False

@[mk_iff]
structure Completes (d : Draft) (ms : List Spelling.Member) (c : Change) : Prop where
  named : ∀ m ∈ ms, ∃ name, Named m name
  component : Settles Spelling.text? d.component none (valuesOf "component" ms) c.component
  id : Settles (Spelling.optional? Spelling.text?) d.id (some none) (valuesOf "id" ms) c.id
  status : Settles status? d.status none (valuesOf "status" ms) c.status
  toDestroy : Settles Spelling.bool? d.toDestroy (some false) (valuesOf "to_destroy" ms) c.toDestroy
  toBuild : Settles Spelling.bool? d.toBuild (some false) (valuesOf "to_build" ms) c.toBuild
  buildToken : Settles (Spelling.optional? token?) d.buildToken (some none)
    (valuesOf "build_token" ms) c.buildToken

abbrev Means (ms : List Spelling.Member) (c : Change) : Prop := Completes {} ms c

section Fields

variable {read? : Spelling → Option α} {slot default? : Option α} {v : Spelling}
  {vs : List Spelling} {a : α}

theorem settles_cons_iff : Settles read? slot default? (v :: vs) a ↔
    slot = none ∧ ∃ x, read? v = some x ∧ Settles read? (some x) default? vs a := by
  cases vs with
  | nil => simp [Settles]
  | cons w vs =>
    cases vs with
    | nil => simp [Settles]
    | cons => simp [Settles]

@[simp] theorem valuesOf_nil (name : String) : valuesOf name [] = [] := rfl

theorem valuesOf_cons (name : String) (m : Spelling.Member) (ms : List Spelling.Member) :
    valuesOf name (m :: ms) =
      if Named m name then m.2 :: valuesOf name ms else valuesOf name ms := by
  rw [valuesOf, List.filter_cons]
  split <;> simp_all [valuesOf]

end Fields

theorem complete_eq_some_iff (d : Draft) (c : Change) :
    d.complete = some c ↔ Completes d [] c := by
  obtain ⟨component, id, status, toDestroy, toBuild, buildToken⟩ := d
  obtain ⟨name, id', status', toDestroy', toBuild', buildToken'⟩ := c
  cases component with
  | none => simp [Draft.complete, completes_iff, Settles]
  | some x =>
    cases status with
    | none => simp [Draft.complete, completes_iff, Settles]
    | some y => simp [Draft.complete, completes_iff, Settles]

theorem completes_cons_iff (d : Draft) (m : Spelling.Member) (ms : List Spelling.Member)
    (c : Change) :
    Completes d (m :: ms) c ↔ ∃ next, take meaning d m = some next ∧ Completes next ms c := by
  cases hname : Glyph.text? m.1 with
  | none => simp [completes_iff, Named, take, hname]
  | some name =>
    have hnamed : ∀ key, Named m key ↔ name = key := fun key => by simp [Named, hname]
    have htake : take meaning d m = meaning name d m.2 := by simp [take, hname]
    rw [htake]
    by_cases hknown : name ∈ fieldNames
    · simp only [fieldNames, List.mem_cons, List.not_mem_nil, or_false] at hknown
      rcases hknown with rfl | rfl | rfl | rfl | rfl | rfl
      all_goals
        simp only [completes_iff, List.forall_mem_cons, valuesOf_cons, hnamed, reduceIte,
          String.reduceEq, settles_cons_iff, meaning, exists_filled_iff, exists_eq', true_and]
        grind
    · simp only [fieldNames, List.mem_cons, List.not_mem_nil, or_false, not_or] at hknown
      have hignored : meaning name d m.2 = some d := by simp [meaning, hknown]
      simp [hignored, completes_iff, valuesOf_cons, hnamed, hknown]

theorem fold_eq_some_iff (d : Draft) (ms : List Spelling.Member) (c : Change) :
    (ms.foldlM (take meaning) d).bind Draft.complete = some c ↔ Completes d ms c := by
  induction ms generalizing d with
  | nil => exact complete_eq_some_iff d c
  | cons m ms ih =>
    rw [completes_cons_iff, List.foldlM_cons]
    cases take meaning d m with
    | none => simp
    | some next => simpa using ih next

/-- A text decodes to a change just when its members mean that change, whatever the layout. -/
theorem decode_eq_ok_iff {ms : List Spelling.Member} {text : String} {c : Change}
    (htext : LaidOut (Spelling.object ms).tokens text.toList) :
    decode text = .ok c ↔ Means ms c := by
  rw [Means, ← fold_eq_some_iff, ← toOption_decode_object htext]
  cases decode text <;> simp [Except.toOption]

theorem exists_error_of_not_means {ms : List Spelling.Member} {text : String}
    (htext : LaidOut (Spelling.object ms).tokens text.toList) (h : ∀ c, ¬ Means ms c) :
    ∃ fault, decode text = .error fault := by
  cases hdecode : decode text with
  | error fault => exact ⟨fault, rfl⟩
  | ok c => exact absurd ((decode_eq_ok_iff htext).1 hdecode) (h c)

section Members

variable {read? : Spelling → Option α} {default? : Option α} {name : String} {m : Spelling.Member}
  {ms ms' : List Spelling.Member} {a : α} {c : Change}

theorem valuesOf_perm (h : ms.Perm ms') (name : String) :
    (valuesOf name ms).Perm (valuesOf name ms') := (h.filter _).map _

theorem settles_nil_iff : Settles read? none default? [] a ↔ default? = some a := Iff.rfl

theorem length_le_of_settles {slot : Option α} {vs : List Spelling}
    (h : Settles read? slot default? vs a) : vs.length ≤ 1 := by
  rcases vs with _ | ⟨v, _ | ⟨w, vs⟩⟩
  · exact Nat.zero_le 1
  · exact Nat.le_refl 1
  · exact h.elim

theorem settles_of_perm {vs vs' : List Spelling} (h : vs.Perm vs')
    (hsettles : Settles read? none default? vs a) : Settles read? none default? vs' a := by
  rcases vs with _ | ⟨v, _ | ⟨w, vs⟩⟩
  · obtain rfl := List.nil_perm.1 h
    exact hsettles
  · obtain rfl := List.singleton_perm.1 h
    exact hsettles
  · exact hsettles.elim

theorem settles_of_cons (hdefault : Named m name → read? m.2 = default?)
    (h : Settles read? none default? (valuesOf name (m :: ms)) a) :
    Settles read? none default? (valuesOf name ms) a := by
  rw [valuesOf_cons] at h
  split at h
  · rename_i hname
    have hlength := length_le_of_settles h
    have hnil : valuesOf name ms = [] := by simpa using hlength
    rw [hnil] at h ⊢
    rw [settles_nil_iff, ← hdefault hname]
    exact h.2
  · exact h

theorem settles_cons (hdefault : Named m name → read? m.2 = default? ∧ valuesOf name ms = [])
    (h : Settles read? none default? (valuesOf name ms) a) :
    Settles read? none default? (valuesOf name (m :: ms)) a := by
  rw [valuesOf_cons]
  split
  · rename_i hname
    obtain ⟨hread, hnil⟩ := hdefault hname
    rw [hnil] at h ⊢
    exact ⟨rfl, hread.trans h⟩
  · exact h

theorem valuesOf_eq_nil (h : ∀ n ∈ ms, ¬ Named n name) : valuesOf name ms = [] := by
  rw [valuesOf, List.filter_eq_nil_iff.2 fun n hn => by simpa using h n hn, List.map_nil]

theorem valuesOf_ne_nil {n : Spelling.Member} (hn : n ∈ ms) (hname : Named n name) :
    valuesOf name ms ≠ [] := by
  have hmem : n ∈ ms.filter fun m => Named m name := List.mem_filter.2 ⟨hn, by simpa using hname⟩
  exact List.ne_nil_of_mem (List.mem_map_of_mem hmem)

end Members

structure Idle (m : Spelling.Member) : Prop where
  named : ∃ name, Named m name
  component : ¬ Named m "component"
  id : Named m "id" → m.2 = .null
  status : ¬ Named m "status"
  toDestroy : Named m "to_destroy" → m.2 = .bool false
  toBuild : Named m "to_build" → m.2 = .bool false
  buildToken : Named m "build_token" → m.2 = .null

namespace Means

variable {m : Spelling.Member} {ms ms' : List Spelling.Member} {c : Change}

theorem perm (h : Means ms c) (hperm : ms.Perm ms') : Means ms' c where
  named := fun m hm => h.named m (hperm.mem_iff.2 hm)
  component := settles_of_perm (valuesOf_perm hperm _) h.component
  id := settles_of_perm (valuesOf_perm hperm _) h.id
  status := settles_of_perm (valuesOf_perm hperm _) h.status
  toDestroy := settles_of_perm (valuesOf_perm hperm _) h.toDestroy
  toBuild := settles_of_perm (valuesOf_perm hperm _) h.toBuild
  buildToken := settles_of_perm (valuesOf_perm hperm _) h.buildToken

theorem of_cons (h : Means (m :: ms) c) (hidle : Idle m) : Means ms c where
  named := fun n hn => h.named n (List.mem_cons_of_mem m hn)
  component := settles_of_cons (fun hname => absurd hname hidle.component) h.component
  id := settles_of_cons (fun hname => by rw [hidle.id hname]; rfl) h.id
  status := settles_of_cons (fun hname => absurd hname hidle.status) h.status
  toDestroy := settles_of_cons (fun hname => by rw [hidle.toDestroy hname]; rfl) h.toDestroy
  toBuild := settles_of_cons (fun hname => by rw [hidle.toBuild hname]; rfl) h.toBuild
  buildToken := settles_of_cons (fun hname => by rw [hidle.buildToken hname]; rfl) h.buildToken

theorem cons (h : Means ms c) (hidle : Idle m)
    (habsent : ∀ name ∈ fieldNames, Named m name → ∀ n ∈ ms, ¬ Named n name) :
    Means (m :: ms) c where
  named := List.forall_mem_cons.2 ⟨hidle.named, h.named⟩
  component := settles_cons (fun hname => absurd hname hidle.component) h.component
  id := settles_cons (fun hname =>
    ⟨by rw [hidle.id hname]; rfl, valuesOf_eq_nil (habsent _ (by decide) hname)⟩) h.id
  status := settles_cons (fun hname => absurd hname hidle.status) h.status
  toDestroy := settles_cons (fun hname =>
    ⟨by rw [hidle.toDestroy hname]; rfl, valuesOf_eq_nil (habsent _ (by decide) hname)⟩) h.toDestroy
  toBuild := settles_cons (fun hname =>
    ⟨by rw [hidle.toBuild hname]; rfl, valuesOf_eq_nil (habsent _ (by decide) hname)⟩) h.toBuild
  buildToken := settles_cons (fun hname =>
    ⟨by rw [hidle.buildToken hname]; rfl, valuesOf_eq_nil (habsent _ (by decide) hname)⟩)
    h.buildToken

end Means

def default? : String → Option Spelling
  | "id" | "build_token" => some .null
  | "to_destroy" | "to_build" => some (.bool false)
  | _ => none

/-- Other ways to write the members of a change: in another order, with members of unknown names,
without fields that hold their default, and with the default of fields that are absent. -/
inductive Respells : List Spelling.Member → List Spelling.Member → Prop where
  | permuted {ms ms' : List Spelling.Member} (h : ms.Perm ms') : Respells ms ms'
  | unknown {m : Spelling.Member} {ms : List Spelling.Member} {name : String} (hname : Named m name)
    (hunknown : name ∉ fieldNames) : Respells ms (m :: ms)
  | omitted {m : Spelling.Member} {ms : List Spelling.Member} {name : String} (hname : Named m name)
    (hdefault : default? name = some m.2) : Respells (m :: ms) ms
  | absent {m : Spelling.Member} {ms : List Spelling.Member} {name : String} (hname : Named m name)
    (hdefault : default? name = some m.2) (habsent : ∀ n ∈ ms, ¬ Named n name) :
    Respells ms (m :: ms)
  | trans {ms ms' ms'' : List Spelling.Member} (h : Respells ms ms') (h' : Respells ms' ms'') :
    Respells ms ms''

section Respelling

variable {m : Spelling.Member} {ms ms' : List Spelling.Member} {name other : String} {c : Change}

theorem Named.unique (h : Named m name) (h' : Named m other) : name = other :=
  Option.some.inj (h.symm.trans h')

theorem idle_of_unknown (hname : Named m name) (hunknown : name ∉ fieldNames) : Idle m := by
  have hother : ∀ field ∈ fieldNames, ¬ Named m field := by
    intro field hfield h
    exact hunknown (hname.unique h ▸ hfield)
  exact {
    named := ⟨name, hname⟩
    component := hother _ (by decide)
    id := fun h => absurd h (hother _ (by decide))
    status := hother _ (by decide)
    toDestroy := fun h => absurd h (hother _ (by decide))
    toBuild := fun h => absurd h (hother _ (by decide))
    buildToken := fun h => absurd h (hother _ (by decide)) }

theorem idle_of_default (hname : Named m name) (hdefault : default? name = some m.2) : Idle m := by
  have hfield : ∀ {field v}, Named m field → default? field = some v → m.2 = v := by
    intro field v h hv
    rw [hname.unique h, hv] at hdefault
    exact (Option.some.inj hdefault).symm
  have hnone : ∀ {field}, default? field = none → ¬ Named m field := by
    intro field hfield h
    rw [hname.unique h, hfield] at hdefault
    cases hdefault
  exact {
    named := ⟨name, hname⟩
    component := hnone rfl
    id := fun h => hfield h rfl
    status := hnone rfl
    toDestroy := fun h => hfield h rfl
    toBuild := fun h => hfield h rfl
    buildToken := fun h => hfield h rfl }

theorem Means.respells (h : Means ms c) (hrespells : Respells ms ms') : Means ms' c := by
  induction hrespells with
  | permuted hperm => exact h.perm hperm
  | unknown hname hunknown =>
    exact h.cons (idle_of_unknown hname hunknown) fun field hfield hother =>
      absurd (hname.unique hother ▸ hfield) hunknown
  | omitted hname hdefault => exact h.of_cons (idle_of_default hname hdefault)
  | absent hname hdefault habsent =>
    exact h.cons (idle_of_default hname hdefault) fun field _ hother =>
      hname.unique hother ▸ habsent
  | trans _ _ ih ih' => exact ih' (ih h)

theorem Means.length_valuesOf_le (h : Means ms c) (hname : name ∈ fieldNames) :
    (valuesOf name ms).length ≤ 1 := by
  simp only [fieldNames, List.mem_cons, List.not_mem_nil, or_false] at hname
  rcases hname with rfl | rfl | rfl | rfl | rfl | rfl
  · exact length_le_of_settles h.component
  · exact length_le_of_settles h.id
  · exact length_le_of_settles h.status
  · exact length_le_of_settles h.toDestroy
  · exact length_le_of_settles h.toBuild
  · exact length_le_of_settles h.buildToken

theorem not_means_of_repeated (hfield : name ∈ fieldNames) (hname : Named m name)
    (hother : ∃ n ∈ ms, Named n name) : ¬ Means (m :: ms) c := by
  intro h
  obtain ⟨n, hn, hnamed⟩ := hother
  have hlength := h.length_valuesOf_le hfield
  have hsome := List.length_pos_iff.2 (valuesOf_ne_nil hn hnamed)
  rw [valuesOf_cons, if_pos hname, List.length_cons] at hlength
  omega

theorem not_means_of_absent (hname : name = "component" ∨ name = "status")
    (habsent : valuesOf name ms = []) : ¬ Means ms c := by
  intro h
  rcases hname with rfl | rfl
  · have hsettles := h.component
    rw [habsent, settles_nil_iff] at hsettles
    cases hsettles
  · have hsettles := h.status
    rw [habsent, settles_nil_iff] at hsettles
    cases hsettles

theorem not_means_of_removed (h : Means (m :: ms) c) (hname : name = "component" ∨ name = "status")
    (hm : Named m name) (d : Change) : ¬ Means ms d := by
  have hfield : name ∈ fieldNames := by rcases hname with rfl | rfl <;> decide
  have hlength := h.length_valuesOf_le hfield
  rw [valuesOf_cons, if_pos hm] at hlength
  exact not_means_of_absent hname (by simpa using hlength)

end Respelling

/-- What is decoded from an object does not depend on how it is written. Let a text with an object
in it decode to a change. However the members are respelled and laid out, the same change is
decoded; without the component or the status, or with a field that is repeated, none is. -/
theorem decoding_ignores_presentation {ms : List Spelling.Member} {text : String} {c : Change}
    (htext : LaidOut (Spelling.object ms).tokens text.toList) (hdecode : decode text = .ok c) :
    (∀ ms' text', Respells ms ms' → LaidOut (Spelling.object ms').tokens text'.toList →
      decode text' = .ok c) ∧
    (∀ m ms' name text', name = "component" ∨ name = "status" → Named m name →
      ms.Perm (m :: ms') → LaidOut (Spelling.object ms').tokens text'.toList →
        ∃ fault, decode text' = .error fault) ∧
    ∀ m ms' name text', name ∈ fieldNames → Named m name → (∃ n ∈ ms, Named n name) →
      ms'.Perm (m :: ms) → LaidOut (Spelling.object ms').tokens text'.toList →
        ∃ fault, decode text' = .error fault := by
  have hmeans := (decode_eq_ok_iff htext).1 hdecode
  refine ⟨fun ms' text' hrespells htext' => ?_,
    fun m ms' name text' hneeded hname hperm htext' => ?_,
    fun m ms' name text' hfield hname hother hperm htext' => ?_⟩
  · exact (decode_eq_ok_iff htext').2 (hmeans.respells hrespells)
  · exact exists_error_of_not_means htext' (not_means_of_removed (hmeans.perm hperm) hneeded hname)
  · exact exists_error_of_not_means htext' fun d h =>
      not_means_of_repeated hfield hname hother (h.perm hperm)

/-! A change that sets a status, and another way to write it. -/

def apiComponent : Spelling.Member :=
  (Glyph.plainly "component", .string (Glyph.plainly "api"))

def apiStatus : Spelling.Member := (Glyph.plainly "status", .string (Glyph.plainly "degraded"))

def apiToBuild : Spelling.Member := (Glyph.plainly "to_build", .bool false)

def apiTrace : Spelling.Member :=
  (Glyph.plainly "trace", .array [.null, .object [(Glyph.plainly "id", .array [])]])

def apiToken : Spelling.Member := (Glyph.plainly "build_token", .null)

/-- The default of one field is left out and that of another is written, an unknown member is put
between, and all is turned round. -/
theorem respells_api :
    Respells [apiComponent, apiStatus, apiToBuild]
      [apiToken, apiTrace, apiStatus, apiComponent] := by
  have hbuild : Named apiToBuild "to_build" := by decide
  have htrace : Named apiTrace "trace" := by decide
  have htoken : Named apiToken "build_token" := by decide
  exact .trans (.permuted (List.reverse_perm _).symm) <| .trans (.omitted hbuild rfl) <|
    .trans (.unknown htrace (by decide)) (.absent htoken rfl (by decide))

theorem decoding_ignores_presentation_api :
    LaidOut (Spelling.object [apiComponent, apiStatus, apiToBuild]).tokens
      "\x7b\"component\":\"api\",\"status\":\"degraded\",\"to_build\":false\x7d".toList ∧
    decode "\x7b\"component\":\"api\",\"status\":\"degraded\",\"to_build\":false\x7d" =
      .ok { component := "api", status := .degraded } ∧
    decode (" \x7b \"build_token\" : null , \"trace\" : [ null , \x7b \"id\" : [ ] \x7d ] ," ++
      " \"status\" : \"degraded\" , \"component\" : \"api\" \x7d") =
      .ok { component := "api", status := .degraded } ∧
    (∃ fault, decode "\x7b\"component\":\"api\",\"to_build\":false\x7d" = .error fault) ∧
    ∃ fault, decode ("\x7b\"component\":\"api\",\"component\":\"api\"," ++
      "\"status\":\"degraded\",\"to_build\":false\x7d") = .error fault := by
  have htext : LaidOut (Spelling.object [apiComponent, apiStatus, apiToBuild]).tokens
      "\x7b\"component\":\"api\",\"status\":\"degraded\",\"to_build\":false\x7d".toList :=
    .evenly [] (List.forall_mem_nil _) (by decide) (by decide +kernel)
  have hdecode : decode "\x7b\"component\":\"api\",\"status\":\"degraded\",\"to_build\":false\x7d" =
      .ok { component := "api", status := .degraded } := by decide +kernel
  obtain ⟨hrespelled, hremoved, hrepeated⟩ := decoding_ignores_presentation htext hdecode
  refine ⟨htext, hdecode, ?_, ?_, ?_⟩
  · exact hrespelled _ _ respells_api (.evenly [' ']
      (List.forall_mem_singleton.2 rfl) (by decide) (by decide +kernel))
  · exact hremoved apiStatus [apiComponent, apiToBuild] _ _ (.inr rfl) (by decide) (.swap ..)
      (.evenly [] (List.forall_mem_nil _) (by decide) (by decide +kernel))
  · have hname : Named apiComponent "component" := by decide
    exact hrepeated apiComponent _ _ _ (by decide) hname ⟨apiComponent, List.mem_cons_self, hname⟩
      (.refl _) (.evenly [] (List.forall_mem_nil _) (by decide) (by decide +kernel))

end Steward.Change
