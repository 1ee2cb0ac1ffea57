import Steward.Change
import Steward.Proofs.Json.Reading
import Steward.Wire.Event
/-!
Messages that cross the boundary of the process: requests to change a component, and events. What
is read from the text of a message is the message.
-/
namespace Steward

open Json.Reader

theorem Status.ofName?_name (s : Status) : ofName? s.name = some s := by
  cases s <;> decide

theorem Outcome.ofName?_name (o : Outcome) : ofName? o.name = some o := by
  cases o <;> decide

theorem Token.reads (t : Token) : Reads reader t.toJson t := by
  intro rest hrest
  have hbound : t.value.toNat < 2 ^ 32 := t.value.toNat_lt
  have hread := reads_natural hbound (by omega) rest hrest
  simp [reader, toJson, hread]

theorem reads_status (s : Status) : Reads Status.reader s.toJson s := reads_named s.ofName?_name

theorem reads_id (x : String) : Reads (optional string) (.string x) (some x) :=
  reads_optional (reads_string x) rfl rfl (by decide)

theorem reads_buildToken (t : Option Token) :
    Reads (optional Token.reader) (.ofOption Token.toJson t) t := by
  cases t with
  | none => exact reads_optional_null
  | some t =>
    obtain ⟨d, ds, hds, hd⟩ := exists_digit t.value.toNat
    exact reads_optional t.reads hds (isBlank_of_isDigit hd) (ne_of_isDigit hd (by decide))

namespace Change

theorem fills_later (component : Option String) (id : Option (Option String)) (status : Status)
    (toDestroy toBuild : Bool) (buildToken : Option Token) :
    Fills plan
      [("status", status.toJson), ("to_destroy", .bool toDestroy), ("to_build", .bool toBuild),
        ("build_token", .ofOption Token.toJson buildToken)]
      ⟨component, id, none, none, none, none⟩
      ⟨component, id, some status, some toDestroy, some toBuild, some buildToken⟩ :=
  .cons rfl ((reads_status status).map _) <| .cons rfl ((reads_bool toDestroy).map _) <|
    .cons rfl ((reads_bool toBuild).map _) <| .cons rfl ((reads_buildToken buildToken).map _) <|
    .nil _

/-- The members of a change fill a draft that is completed to the change. An absent id has no
member, and an empty one has. -/
theorem exists_fills (c : Change) :
    ∃ ms d, c.toJson = .object ms ∧ Fills plan ms {} d ∧ d.complete = some c := by
  obtain ⟨component, id, status, toDestroy, toBuild, buildToken⟩ := c
  cases id with
  | none =>
    have hlater := fills_later (some component) none status toDestroy toBuild buildToken
    exact ⟨_, _, rfl, .cons rfl ((reads_string component).map _) hlater, rfl⟩
  | some id =>
    have hlater := fills_later (some component) (some id) status toDestroy toBuild buildToken
    exact ⟨_, _, rfl, .cons rfl ((reads_string component).map _) <|
      .cons rfl ((reads_id id).map _) hlater, rfl⟩

theorem decode_encode (c : Change) : decode c.encode = .ok c := by
  obtain ⟨ms, d, hms, hfills, hcomplete⟩ := c.exists_fills
  have hread : Json.decode reader c.toJson.text = .ok c := by
    rw [hms]
    exact Json.decode_text (record_object hfills hcomplete [])
  rw [decode, encode, hread]
  rfl

end Change

namespace Event

@[simp] theorem word?_ofNat (n : UInt32) : word? (.ofNat n.toNat) = some n := by
  have hbound : n.toNat < 2 ^ 32 := n.toNat_lt
  have hread := @Json.read_digits n.toNat [] (by omega) (by simp [Json.IsPast])
  rw [List.append_nil] at hread
  simp only [word?, Json.ofNat, hread]
  rw [if_pos hbound, UInt32.ofNat_toNat]

@[simp] theorem word?_token (t : Token) : word? t.toJson = some t.value := word?_ofNat t.value

@[simp] theorem text?_string (x : String) : text? (.string x) = some x := rfl

@[simp] theorem name?_status (s : Status) : name? Status.ofName? s.toJson = some s :=
  s.ofName?_name

@[simp] theorem name?_outcome (o : Outcome) : name? Outcome.ofName? o.toJson = some o :=
  o.ofName?_name

inductive IsPlain : Json → Prop where
  | string (x : String) : IsPlain (.string x)
  | word (n : UInt32) : IsPlain (.ofNat n.toNat)

theorem isPlain_token (t : Token) : IsPlain t.toJson := .word t.value

theorem isPlain_status (s : Status) : IsPlain s.toJson := .string s.name

theorem isPlain_outcome (o : Outcome) : IsPlain o.toJson := .string o.name

theorem IsPlain.reads {j : Json} (h : IsPlain j) : Reads (value memberDepth) j j := by
  cases h with
  | string x => exact reads_value_string _ x
  | word n =>
    have hbound : n.toNat < 2 ^ 32 := n.toNat_lt
    exact reads_value_natural _ (by omega)

theorem fills_members {ms : List (String × Json)}
    (h : ∀ m ∈ ms, m.1 ≠ "type" ∧ IsPlain m.2) (d : Draft) :
    Fills plan ms d { d with members := ms.reverse ++ d.members } := by
  induction ms generalizing d with
  | nil => exact .nil d
  | cons m ms ih =>
    obtain ⟨name, j⟩ := m
    obtain ⟨⟨hname, hplain⟩, hms⟩ := List.forall_mem_cons.1 h
    have hrest := ih hms { d with members := (name, j) :: d.members }
    rw [List.reverse_cons, List.append_assoc, List.singleton_append]
    refine .cons (if_neg hname) (fun rest hend => ?_) hrest
    simp [hplain.reads rest hend]

theorem exists_members (e : Event) : ∃ kind name ms,
    e.toJson = .object (("type", .string name) :: ms) ∧ Kind.ofName? name = some kind ∧
      (∀ m ∈ ms, m.1 ≠ "type" ∧ IsPlain m.2) ∧ ofMembers? kind ms = some e := by
  cases e with
  | built component token outcome previous status =>
    refine ⟨.built, _, _, rfl, rfl, ?_, ?_⟩
    · simp [isPlain_token, isPlain_outcome, isPlain_status, IsPlain.string]
    · simp [ofMembers?, Kind.memberNames, Kind.assemble, List.lookup_cons]
  | destroyed component =>
    refine ⟨.destroyed, _, _, rfl, rfl, ?_, ?_⟩
    · simp [IsPlain.string]
    · simp [ofMembers?, Kind.memberNames, Kind.assemble]
  | statusChanged component previous status =>
    refine ⟨.statusChanged, _, _, rfl, rfl, ?_, ?_⟩
    · simp [isPlain_status, IsPlain.string]
    · simp [ofMembers?, Kind.memberNames, Kind.assemble, List.lookup_cons]
  | credentialRotated component attempts =>
    refine ⟨.credentialRotated, _, _, rfl, rfl, ?_, ?_⟩
    · simp [IsPlain.word, IsPlain.string]
    · simp [ofMembers?, Kind.memberNames, Kind.assemble, List.lookup_cons]
  | rotationExhausted component attempts =>
    refine ⟨.rotationExhausted, _, _, rfl, rfl, ?_, ?_⟩
    · simp [IsPlain.word, IsPlain.string]
    · simp [ofMembers?, Kind.memberNames, Kind.assemble, List.lookup_cons]

theorem decode_toJson (e : Event) : Json.decode reader e.toJson.text = .ok e := by
  obtain ⟨kind, name, ms, hms, hkind, hplain, hmembers⟩ := e.exists_members
  have hfills : Fills plan (("type", .string name) :: ms) {} ⟨some kind, ms.reverse⟩ := by
    have hrest := fills_members hplain { kind := some kind }
    rw [List.append_nil] at hrest
    exact .cons rfl ((reads_parsed hkind).map _) hrest
  have hcomplete : Draft.complete ⟨some kind, ms.reverse⟩ = some e := by
    show ofMembers? kind ms.reverse.reverse = some e
    rw [List.reverse_reverse, hmembers]
  have hrecord : record plan {} Draft.complete (fail .mismatched)
      ((Json.object (("type", .string name) :: ms)).chars ++ []) = .ok (e, []) :=
    record_object hfills hcomplete []
  rw [hms]
  refine Json.decode_text ?_
  rw [Json.chars, List.cons_append, List.cons_append] at hrecord ⊢
  rw [reader, bind_apply, next_cons rfl, ok_bind]
  exact hrecord

end Event

/-- What is read from the text of a change or of an event is that change or event. -/
theorem messages_survive :
    (∀ c : Change, Change.decode c.encode = .ok c) ∧
      ∀ e : Event, Json.decode Event.reader e.toJson.text = .ok e :=
  ⟨Change.decode_encode, Event.decode_toJson⟩

end Steward
