import Mathlib.Data.List.TakeWhile
import Steward.Proofs.Json.Meaning
/-!
What readers make of spelled values. A reader comes to what a value means to it wherever the value
stands and however it is laid out, and fails wherever the value means nothing to it. So what is
decoded from a text depends on the spelling of its values and not on its blanks.
-/
namespace Steward.Json

variable {α β σ : Type}

namespace Reader

inductive Ends (rest : List Token) : Except JsonFlaw (α × List Char) → Option α → Prop where
  | read (a : α) {s : List Char} (h : LaidOut rest s) : Ends rest (.ok (a, s)) (some a)
  | refused (flaw : JsonFlaw) : Ends rest (.error flaw) none

theorem Ends.bind {between rest : List Token} {e : Except JsonFlaw (α × List Char)} {a? : Option α}
    {k : α × List Char → Except JsonFlaw (β × List Char)} {f : α → Option β}
    (h : Ends between e a?) (hk : ∀ a s, LaidOut between s → Ends rest (k (a, s)) (f a)) :
    Ends rest (e >>= k) (a?.bind f) := by
  cases h with
  | read a hs => exact hk a _ hs
  | refused flaw => exact .refused flaw

theorem Ends.bind_none {between : List Token} {e : Except JsonFlaw (α × List Char)}
    (h : Ends between e none) (k : α × List Char → Except JsonFlaw (β × List Char))
    (rest : List Token) : Ends rest (e >>= k) none := by
  cases h with
  | refused flaw => exact .refused flaw

theorem Ends.exists_ok {rest : List Token} {e : Except JsonFlaw (α × List Char)} {a : α}
    (h : Ends rest e (some a)) : ∃ s, e = .ok (a, s) ∧ LaidOut rest s := by
  cases h with
  | read _ hs => exact ⟨_, rfl, hs⟩

/-- What a reader makes of a value, wherever it stands and however it is laid out. -/
def Gives (r : Reader α) (v : Spelling) (a? : Option α) : Prop :=
  ∀ (rest : List Token) (s : List Char), Past rest → LaidOut (v.tokens ++ rest) s →
    Ends rest (r s) a?

theorem Gives.map {r : Reader α} {v : Spelling} {a? : Option α} (h : Gives r v a?) (f : α → β) :
    Gives (f <$> r) v (a?.map f) := by
  intro rest s hrest hs
  rw [map_apply, Option.map_eq_bind]
  exact (h rest s hrest hs).bind fun a t ht => .read _ ht

def Refuses (r : Reader α) : Prop := ∀ (s : List Char) (rest : List Token), Ends rest (r s) none

theorem refuses_fail (flaw : JsonFlaw) : Refuses (fail flaw : Reader α) := fun _ _ => .refused flaw

theorem Refuses.bind {r : Reader β} {f : β → Reader α} (h : ∀ b, Refuses (f b)) :
    Refuses (r >>= f) := by
  intro s rest
  rw [bind_apply]
  cases r s with
  | error flaw => exact .refused flaw
  | ok p => exact h p.1 p.2 rest

theorem refuses_unwanted : Refuses (unwanted : Reader α) := by
  refine .bind fun c? => ?_
  dsimp only
  split
  case h_5 | h_6 => exact refuses_fail _
  case h_8 => exact .bind fun _ => refuses_fail _
  case h_7 =>
    split
    · exact .bind fun _ => refuses_fail _
    · exact .bind fun _ => refuses_fail _
  all_goals exact .bind fun _ => .bind fun _ => refuses_fail _

section Readers

variable {rest : List Token} {s : List Char}

theorem ends_stringRest (gs : List Glyph) (h : LaidOut rest s) :
    Ends rest (stringRest (gs.flatMap Glyph.chars ++ '"' :: s)) (Glyph.text? gs) := by
  have hcontents := contents_glyphs gs s
  rw [Glyph.text?, stringRest]
  cases hletters : Glyph.letters? gs with
  | none =>
    rw [hletters] at hcontents
    cases hread : contents (gs.flatMap Glyph.chars ++ '"' :: s) with
    | error flaw => exact .refused flaw
    | ok p =>
      rw [hread] at hcontents
      cases hcontents
  | some cs =>
    rw [hletters] at hcontents
    cases hread : contents (gs.flatMap Glyph.chars ++ '"' :: s) with
    | error flaw =>
      rw [hread] at hcontents
      cases hcontents
    | ok p =>
      rw [hread] at hcontents
      obtain rfl := Option.some.inj hcontents
      exact .read _ h

theorem ends_string_other {v : Spelling} (hv : ∀ gs, v ≠ .string gs)
    (h : LaidOut (v.tokens ++ rest) s) : Ends rest (string s) none := by
  obtain ⟨c, t, hc, hnext, -⟩ := h.exists_begins
  have hquote : c ≠ '"' := by
    rintro rfl
    cases hc with
    | digit _ hdigit => exact absurd hdigit (by decide)
    | string gs => exact hv gs rfl
  simp [string, next, hnext, hquote, refuses_unwanted t rest]

theorem ends_string (gs : List Glyph) (h : LaidOut (Glyph.inQuotes gs :: rest) s) :
    Ends rest (string s) (Glyph.text? gs) := by
  obtain ⟨t, hnext, ht⟩ := LaidOut.exists_next h rfl
  have hread := ends_stringRest gs ht
  simpa [string, hnext] using hread

theorem gives_string (v : Spelling) : Gives string v v.text? := by
  intro rest s hrest hs
  cases v with
  | string gs => exact ends_string gs hs
  | _ => exact ends_string_other (fun _ => Spelling.noConfusion) hs

theorem gives_bool (v : Spelling) : Gives bool v v.bool? := by
  intro rest s hrest hs
  cases v with
  | bool b =>
    cases b with
    | true =>
      obtain ⟨t, hnext, ht⟩ := LaidOut.exists_next hs rfl
      have hread : bool s = .ok (true, t) := by simp [bool, hnext, spell]
      rw [hread]
      exact .read true ht
    | false =>
      obtain ⟨t, hnext, ht⟩ := LaidOut.exists_next hs rfl
      have hread : bool s = .ok (false, t) := by simp [bool, hnext, spell]
      rw [hread]
      exact .read false ht
  | _ =>
    obtain ⟨c, t, hc, hnext, -⟩ := hs.exists_begins
    have hother : c ≠ 't' ∧ c ≠ 'f' := by
      constructor
      all_goals
        rintro rfl
        cases hc
      all_goals exact absurd ‹Text.isDigit _ = true› (by decide)
    simp [bool, next, hnext, hother, refuses_unwanted t rest, Spelling.bool?]

theorem gives_natural (v : Spelling) {limit : Nat} (hlimit : limit ≤ 2 ^ 64) :
    Gives (natural limit) v (v.natural? limit) := by
  intro rest s hrest hs
  cases v with
  | number f =>
    obtain ⟨c, cs, hchars, hc⟩ := f.exists_begins
    have hfirst : c = '-' ∨ Text.isDigit c = true := by
      cases hc with
      | minus => exact .inl rfl
      | digit _ hdigit => exact .inr hdigit
    rw [Spelling.tokens, hchars] at hs
    obtain ⟨t, hnext, ht⟩ := LaidOut.exists_next hs hc.isBlank
    have hpast := ht.isPast hrest
    have hnumber : number s = Numeral.read (f.chars ++ t) := by
      simp [number, hnext, hfirst, numeral, hchars]
    rw [Spelling.natural?, natural, bind_apply, hnumber]
    cases hmeaning : f.natural?.filter (· < limit) with
    | some n =>
      obtain ⟨hn, hbelow⟩ := Option.filter_eq_some_iff.1 hmeaning
      have hbelow : n < limit := by simpa using hbelow
      rw [Figure.read_natural hn (by omega) hpast, ok_bind]
      simp only [hbelow, if_true]
      exact .read n ht
    | none =>
      have hnone : ∀ n u, Numeral.read (f.chars ++ t) = .ok (.natural n, u) → ¬ n < limit := by
        intro n u hread hbelow
        rw [Figure.natural?_of_read hread hpast] at hmeaning
        simp at hmeaning
        omega
      cases hread : Numeral.read (f.chars ++ t) with
      | error flaw => exact .refused flaw
      | ok p =>
        obtain ⟨x, u⟩ := p
        cases x with
        | natural n =>
          rw [ok_bind]
          simp only [hnone n u hread, if_false]
          exact .refused _
        | negative n => exact .refused _
        | real x => exact .refused _
  | _ =>
    obtain ⟨c, t, hc, hnext, -⟩ := hs.exists_begins
    have hother : c ≠ '-' ∧ Text.isDigit c = false := by
      cases hc
      all_goals decide
    have hnumber : Ends rest (number s) none := by
      simp [number, next, hnext, hother, refuses_unwanted t rest]
    exact hnumber.bind_none _ rest

theorem gives_optional {r : Reader α} {read? : Spelling → Option α} {v : Spelling}
    (h : Gives r v (read? v)) : Gives (optional r) v (v.optional? read?) := by
  intro rest s hrest hs
  cases v with
  | null =>
    obtain ⟨t, hnext, ht⟩ := LaidOut.exists_next? hs rfl
    have hread : optional r s = .ok (none, t) := by simp [optional, hnext, spell]
    rw [hread]
    exact .read none ht
  | _ =>
    obtain ⟨c, t, hc, hnext, ht⟩ := hs.exists_begins
    have hother : c ≠ 'n' := by
      rintro rfl
      cases hc
      all_goals exact absurd ‹Text.isDigit _ = true› (by decide)
    have hread : optional r s = (r t >>= fun p => .ok (some p.1, p.2)) := by
      simp [optional, hnext, hother]
    rw [hread, Spelling.optional?, Option.map_eq_bind]
    · exact (h rest t hrest ht).bind fun a u hu => .read _ hu
    · exact Spelling.noConfusion

variable {ofName? : String → Option α}

theorem ends_parsed (gs : List Glyph) (h : LaidOut (Glyph.inQuotes gs :: rest) s) :
    Ends rest (parsed ofName? s) ((Glyph.text? gs).bind ofName?) := by
  refine (ends_string gs h).bind fun x t ht => ?_
  cases hname : ofName? x with
  | none =>
    simp only [hname]
    exact .refused _
  | some a =>
    simp only [hname]
    exact .read a ht

theorem exists_colon (h : LaidOut ([':'] :: rest) s) :
    ∃ t, colon s = .ok ((), t) ∧ LaidOut rest t := by
  obtain ⟨t, hnext, ht⟩ := h.exists_next? rfl
  exact ⟨t, by simp [colon, hnext], ht⟩

theorem gives_null (v : Spelling) : Gives null v v.null? := by
  intro rest s hrest hs
  cases v with
  | null =>
    obtain ⟨t, hnext, ht⟩ := LaidOut.exists_next hs rfl
    have hread : null s = .ok ((), t) := by simp [null, hnext, spell]
    rw [hread]
    exact .read () ht
  | _ =>
    obtain ⟨c, t, hc, hnext, -⟩ := hs.exists_begins
    have hother : c ≠ 'n' := by
      rintro rfl
      cases hc
      all_goals exact absurd ‹Text.isDigit _ = true› (by decide)
    simp [null, next, hnext, hother, refuses_unwanted t rest, Spelling.null?]

def pastName (a : α) : Reader α := do
  colon
  null
  match ← next? with
  | some '}' => advance
  | some _ => fail .malformed
  | none => fail .truncated
  return a

theorem named_brace {t : List Char} (h : next s = .ok ('{', '{' :: t)) :
    named ofName? s = (parsed ofName? t >>= fun p => pastName p.1 p.2) := by
  simp only [named, bind_apply, h, ok_bind]
  rfl

theorem ends_pastName (a : α) (v : Spelling) (ms : List Spelling.Member)
    (h : LaidOut ([':'] :: (v.tokens ++ ((ms.map Spelling.Member.tokens).flatMap ([','] :: ·) ++
      ['}'] :: rest))) s) :
    Ends rest (pastName a s) (v.null?.bind fun _ => if ms.isEmpty then some a else none) := by
  obtain ⟨t, hcolon, ht⟩ := exists_colon h
  rw [pastName, bind_apply, hcolon, ok_bind, bind_apply]
  refine (gives_null v _ t (past_parts .object _) ht).bind fun _ u hu => ?_
  cases ms with
  | nil =>
    obtain ⟨w, hnext, hw⟩ := LaidOut.exists_next? hu rfl
    rw [bind_apply, hnext]
    exact .read a hw
  | cons m ms =>
    obtain ⟨w, hnext, -⟩ := LaidOut.exists_next? hu rfl
    rw [bind_apply, hnext]
    exact .refused _

theorem named?_object (gs : List Glyph) (v : Spelling) (ms : List Spelling.Member) :
    (Spelling.object ((gs, v) :: ms)).named? ofName? =
      ((Glyph.text? gs).bind ofName?).bind fun a =>
        v.null?.bind fun _ => if ms.isEmpty then some a else none := by
  cases v <;> cases ms <;> simp [Spelling.named?, Spelling.null?]

theorem ends_named_object (ms : List Spelling.Member)
    (h : LaidOut ((Spelling.object ms).tokens ++ rest) s) :
    Ends rest (named ofName? s) ((Spelling.object ms).named? ofName?) := by
  rw [Spelling.tokens, Spelling.memberTokens_eq_map, List.cons_append, List.append_assoc,
    List.singleton_append] at h
  obtain ⟨t, hnext, ht⟩ := h.exists_next rfl
  rw [named_brace hnext]
  cases ms with
  | nil =>
    obtain ⟨u, hclose, -⟩ := LaidOut.exists_next ht rfl
    have hstring : Ends rest (string t) none := by
      simp [string, hclose, refuses_unwanted _ rest]
    exact (hstring.bind_none _ rest).bind_none _ rest
  | cons m ms =>
    obtain ⟨gs, v⟩ := m
    rw [List.map_cons, parted, List.append_assoc] at ht
    rw [named?_object]
    exact (ends_parsed gs ht).bind fun a u hu => ends_pastName a v ms hu

theorem gives_named (v : Spelling) : Gives (named ofName?) v (v.named? ofName?) := by
  intro rest s hrest hs
  cases v with
  | string gs =>
    obtain ⟨t, hnext, ht⟩ := LaidOut.exists_next hs rfl
    have hread : Ends rest (parsed ofName? ('"' :: (gs.flatMap Glyph.chars ++ ['"'] ++ t)))
        ((Glyph.text? gs).bind ofName?) := ends_parsed gs ht.here
    simpa [named, hnext, Spelling.named?] using hread
  | object ms => exact ends_named_object ms hs
  | _ =>
    obtain ⟨c, t, hc, hnext, -⟩ := hs.exists_begins
    have hother : c ≠ '"' ∧ c ≠ '{' := by
      constructor
      all_goals
        rintro rfl
        cases hc
      all_goals exact absurd ‹Text.isDigit _ = true› (by decide)
    have hread : named ofName? s = .error .malformed := by
      simp [named, next, hnext, hother]
      rfl
    rw [hread]
    exact .refused _

/-- What becomes of a state with a value, by the plan for its key. -/
inductive KeyPlan.Means : KeyPlan σ → σ → Spelling → Option σ → Prop where
  | ignore (state : σ) (v : Spelling) : Means .ignore state v (some state)
  | repeated (state : σ) (v : Spelling) : Means .repeated state v none
  | read {r : Reader σ} {state : σ} {v : Spelling} {after? : Option σ} (h : Gives r v after?) :
    Means (.read r) state v after?

/-- A member taken into a state, if its key spells a text. -/
def take (meaning : String → σ → Spelling → Option σ) (state : σ) (m : Spelling.Member) :
    Option σ := (Glyph.text? m.1).bind fun key => meaning key state m.2

variable {plan : String → σ → KeyPlan σ} {meaning : String → σ → Spelling → Option σ}
  {after more : List Token}

theorem ends_key_first (gs : List Glyph) (h : LaidOut (Glyph.inQuotes gs :: after) s) :
    Ends after (key? true s) ((Glyph.text? gs).map some) := by
  obtain ⟨t, hnext, ht⟩ := LaidOut.exists_next? h rfl
  have hkey : key? true s = (stringRest (gs.flatMap Glyph.chars ++ '"' :: t) >>= fun p =>
      .ok (some p.1, p.2)) := by
    simp [key?, hnext]
  rw [hkey, Option.map_eq_bind]
  exact (ends_stringRest gs ht).bind fun key u hu => .read _ hu

theorem ends_key_next (gs : List Glyph) (h : LaidOut ([','] :: Glyph.inQuotes gs :: after) s) :
    Ends after (key? false s) ((Glyph.text? gs).map some) := by
  obtain ⟨t, hcomma, ht⟩ := LaidOut.exists_next? h rfl
  obtain ⟨u, hnext, hu⟩ := LaidOut.exists_next? ht rfl
  have hkey : key? false s = (stringRest (gs.flatMap Glyph.chars ++ '"' :: u) >>= fun p =>
      .ok (some p.1, p.2)) := by
    simp [key?, hcomma, hnext]
  rw [hkey, Option.map_eq_bind]
  exact (ends_stringRest gs hu).bind fun key w hw => .read _ hw

theorem exists_key_end (first : Bool) (h : LaidOut (['}'] :: after) s) :
    ∃ t, key? first s = .ok (none, t) ∧ LaidOut after t := by
  obtain ⟨t, hnext, ht⟩ := h.exists_next? rfl
  exact ⟨t, by simp [key?, hnext], ht⟩

theorem ends_member (hplan : ∀ key state v, (plan key state).Means state v (meaning key state v))
    {first : Bool} {rounds : Nat} {state : σ} (m : Spelling.Member) {others : σ → Option σ}
    (hkey : Ends ([':'] :: (m.2.tokens ++ more)) (key? first s) ((Glyph.text? m.1).map some))
    (hmore : Past more)
    (hothers : ∀ next t, LaidOut more t →
      Ends after (members plan rounds false next t) (others next)) :
    Ends after (members plan (rounds + 1) first state s) ((take meaning state m).bind others) := by
  rw [members, bind_apply, take]
  cases hname : Glyph.text? m.1 with
  | none =>
    rw [hname] at hkey
    exact hkey.bind_none _ after
  | some key =>
    rw [hname] at hkey
    obtain ⟨t, hread, ht⟩ := hkey.exists_ok
    obtain ⟨u, hcolon, hu⟩ := exists_colon ht
    have hmeans := hplan key state m.2
    rw [hread, ok_bind, Option.bind_some]
    dsimp only
    generalize meaning key state m.2 = after? at hmeans
    generalize plan key state = todo at hmeans
    cases hmeans with
    | ignore =>
      obtain ⟨w, hskip, hw⟩ := exists_skip m.2 hmore hu
      dsimp only
      rw [bind_apply, hcolon, ok_bind, bind_apply, hskip]
      exact hothers state w hw
    | repeated => exact .refused _
    | read hgives =>
      dsimp only
      rw [bind_apply, hcolon, ok_bind, bind_apply]
      exact (hgives _ u hmore hu).bind hothers

theorem ends_members_others
    (hplan : ∀ key state v, (plan key state).Means state v (meaning key state v))
    (ms : List Spelling.Member) {state : σ} {rounds : Nat} (hrounds : ms.length < rounds)
    (h : LaidOut ((ms.map Spelling.Member.tokens).flatMap ([','] :: ·) ++ ['}'] :: after) s) :
    Ends after (members plan rounds false state s) (ms.foldlM (take meaning) state) := by
  induction ms generalizing rounds state s with
  | nil =>
    obtain ⟨rounds, rfl⟩ := Nat.exists_eq_add_one_of_ne_zero (Nat.ne_zero_of_lt hrounds)
    obtain ⟨t, hend, ht⟩ := exists_key_end false h
    rw [members, bind_apply, hend]
    exact .read state ht
  | cons m ms ih =>
    obtain ⟨rounds, rfl⟩ := Nat.exists_eq_add_one_of_ne_zero (Nat.ne_zero_of_lt hrounds)
    rw [List.map_cons, List.flatMap_cons, List.append_assoc] at h
    rw [List.foldlM_cons]
    exact ends_member hplan m (ends_key_next m.1 h) (past_parts .object _) fun next t ht =>
      ih (Nat.lt_of_succ_lt_succ hrounds) ht

theorem ends_members
    (hplan : ∀ key state v, (plan key state).Means state v (meaning key state v))
    (ms : List Spelling.Member) (state : σ) {rounds : Nat} (hrounds : ms.length < rounds)
    (h : LaidOut (parted (ms.map Spelling.Member.tokens) ++ ['}'] :: after) s) :
    Ends after (members plan rounds true state s) (ms.foldlM (take meaning) state) := by
  obtain ⟨rounds, rfl⟩ := Nat.exists_eq_add_one_of_ne_zero (Nat.ne_zero_of_lt hrounds)
  cases ms with
  | nil =>
    obtain ⟨t, hend, ht⟩ := exists_key_end true h
    rw [members, bind_apply, hend]
    exact .read state ht
  | cons m ms =>
    rw [List.map_cons, parted, List.append_assoc] at h
    rw [List.foldlM_cons]
    exact ends_member hplan m (ends_key_first m.1 h) (past_parts .object _) fun next t ht =>
      ends_members_others hplan ms (Nat.lt_of_succ_lt_succ hrounds) ht

theorem length_le_parted (ms : List Spelling.Member) :
    ms.length ≤ (parted (ms.map Spelling.Member.tokens)).length := by
  have hothers : ∀ parts : List (List Token),
      parts.length ≤ (parts.flatMap ([','] :: ·)).length := by
    intro parts
    induction parts with
    | nil => exact Nat.le_refl 0
    | cons part parts ih =>
      rw [List.flatMap_cons, List.length_append, List.length_cons, List.length_cons]
      omega
  cases ms with
  | nil => exact Nat.le_refl 0
  | cons m ms =>
    have hlater := hothers (ms.map Spelling.Member.tokens)
    rw [List.map_cons, parted, List.length_append, Spelling.Member.tokens]
    simp only [List.length_cons, List.length_map] at hlater ⊢
    omega

theorem gives_record (hplan : ∀ key state v, (plan key state).Means state v (meaning key state v))
    (ms : List Spelling.Member) (draft : σ) (complete : σ → Option α) (fields : Reader α) :
    Gives (record plan draft complete fields) (.object ms)
      ((ms.foldlM (take meaning) draft).bind complete) := by
  intro rest s _ hs
  rw [Spelling.tokens, Spelling.memberTokens_eq_map, List.cons_append, List.append_assoc,
    List.singleton_append] at hs
  obtain ⟨t, hnext, ht⟩ := hs.exists_next rfl
  have hrounds : ms.length < t.length + 1 := by
    have hlength := ht.length_le
    have hparted := length_le_parted ms
    rw [List.length_append] at hlength
    omega
  have hadvance : Reader.advance ('{' :: ([] ++ t)) = .ok ((), t) := rfl
  have hget : (get : Reader (List Char)) t = .ok (t, t) := rfl
  simp only [record, bind_apply, hnext, ok_bind, hadvance, hget]
  refine (ends_members hplan ms draft hrounds ht).bind fun filled u hu => ?_
  cases hcomplete : complete filled with
  | none => exact .refused _
  | some a => exact .read a hu

end Readers

end Reader

theorem toOption_decode {r : Reader α} {v : Spelling} {a? : Option α} (h : Reader.Gives r v a?)
    {text : String} (htext : LaidOut v.tokens text.toList) : (decode r text).toOption = a? := by
  have hdecode : decode r text = (r text.toList >>= fun p =>
      if (p.2.dropWhile Reader.isBlank).isEmpty then .ok p.1 else .error .malformed) := by
    rw [decode, StateT.run, Reader.bind_apply]
    cases r text.toList <;> rfl
  have hends := h [] text.toList .nil (by rwa [List.append_nil])
  rw [hdecode]
  generalize r text.toList = e at hends
  cases hends with
  | refused flaw => rfl
  | @read a s hs =>
    have hblank : s.dropWhile Reader.isBlank = [] := by
      cases hs with
      | nil hblank => exact List.dropWhile_eq_nil_iff.2 hblank
    simp only [Reader.ok_bind, hblank]
    rfl

end Steward.Json
