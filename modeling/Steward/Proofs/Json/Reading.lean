import Steward.Json.Reader
import Steward.Proofs.Text.Digits
/-!
Reading back what was written: numbers in digits, strings between quotes, and the members of an
object. Each reader is shown to take just the text of its value, whatever follows.
-/
namespace Steward.Json

variable {α β σ : Type}

section Digits

open Nat (ofDigitChars)

theorem le_ofDigitChars (digits : List Char) (n : Nat) : n ≤ ofDigitChars 10 digits n := by
  rw [Nat.ofDigitChars_eq_ofDigitChars_zero]
  have hpos : 1 ≤ 10 ^ digits.length := Nat.one_le_pow _ _ (by decide)
  have hmul : n ≤ 10 ^ digits.length * n := Nat.le_mul_of_pos_left n hpos
  omega

theorem leading_eq {digits : List Char} {n : Nat} (h : ofDigitChars 10 digits n < 2 ^ 64) :
    Numeral.leading n digits = (ofDigitChars 10 digits n, []) := by
  induction digits generalizing n with
  | nil => rw [Numeral.leading, Nat.ofDigitChars_nil]
  | cons d ds ih =>
    rw [Nat.ofDigitChars_cons] at h ⊢
    have hstep : n * 10 + Text.digitValue d = 10 * n + (d.toNat - '0'.toNat) := by
      rw [Nat.mul_comm]
      rfl
    have hfits : Numeral.fits n d = true := by
      have hle := le_ofDigitChars ds (10 * n + (d.toNat - '0'.toNat))
      rw [Numeral.fits, hstep, decide_eq_true_iff]
      omega
    rw [Numeral.leading, if_pos hfits, hstep]
    exact ih h

end Digits

def IsPast (rest : List Char) : Prop :=
  ∀ c ∈ rest.head?, Text.isDigit c = false ∧ c ≠ '.' ∧ c ≠ 'e' ∧ c ≠ 'E'

def Undigited (rest : List Char) : Prop := ∀ c ∈ rest.head?, Text.isDigit c = false

theorem IsPast.undigited {rest : List Char} (h : IsPast rest) : Undigited rest :=
  fun c hc => (h c hc).1

theorem takeWhile_digits {digits rest : List Char} (hdigits : ∀ c ∈ digits, Text.isDigit c = true)
    (hrest : Undigited rest) : (digits ++ rest).takeWhile Text.isDigit = digits := by
  rw [List.takeWhile_append_of_pos hdigits]
  rcases rest with _ | ⟨c, cs⟩
  · simp
  · rw [List.takeWhile_cons_of_neg (by simp [hrest c rfl]), List.append_nil]

/-- Digits of a number of 64 bits are read as that number, if no zero stands before others. -/
theorem read_plain {digits rest : List Char} (hsome : digits ≠ [])
    (hdigits : ∀ c ∈ digits, Text.isDigit c = true) (hzero : ∀ ds, digits = '0' :: ds → ds = [])
    (hvalue : Nat.ofDigitChars 10 digits 0 < 2 ^ 64) (hrest : IsPast rest) :
    Numeral.read (digits ++ rest) = .ok (.natural (Nat.ofDigitChars 10 digits 0), rest) := by
  have hunsigned : Numeral.unsigned false (digits ++ rest) =
      .ok (.natural (Nat.ofDigitChars 10 digits 0), rest) := by
    simp only [Numeral.unsigned, takeWhile_digits hdigits hrest.undigited, List.drop_left]
    split
    · exact absurd rfl hsome
    · cases hzero _ rfl
    · rw [leading_eq hvalue]
      dsimp only
      split
      · exact absurd rfl (hrest _ rfl).2.1
      · exact absurd rfl (hrest _ rfl).2.2.1
      · exact absurd rfl (hrest _ rfl).2.2.2
      · rfl
  have hsign : ∀ r, digits ++ rest ≠ '-' :: r := by
    intro r h
    obtain ⟨d, ds, rfl⟩ := List.exists_cons_of_ne_nil hsome
    rw [List.cons_append, List.cons.injEq] at h
    have hd := hdigits d List.mem_cons_self
    rw [h.1] at hd
    exact absurd hd (by decide)
  rw [Numeral.read]
  · exact hunsigned
  · exact hsign

theorem read_digits {n : Nat} {rest : List Char} (hn : n < 2 ^ 64) (hrest : IsPast rest) :
    Numeral.read ((toString n).toList ++ rest) = .ok (.natural n, rest) := by
  have hzero : ∀ ds, Nat.toDigits 10 n = '0' :: ds → ds = [] := by
    intro ds hds
    obtain rfl := Text.eq_zero_of_toDigits hds
    rw [Nat.toDigits_zero] at hds
    exact (List.cons.inj hds).2.symm
  have hread := read_plain Nat.toDigits_ne_nil (fun _ => Text.isDigit_of_mem_toDigits) hzero
    (by rwa [Nat.ofDigitChars_ten_toDigits]) hrest
  rwa [Nat.ofDigitChars_ten_toDigits, ← Text.toList_toString] at hread

theorem hexValueOf?_hex {n : Nat} (h : n < 32) :
    Text.hexValueOf? (Text.hex 'a' 4 n) = some n := by
  revert n
  decide

namespace Reader

theorem contents_code {n : Nat} (h : n < 32) (s : List Char) :
    contents ('\\' :: 'u' :: Text.hex 'a' 4 n ++ s) =
      (contents s).map fun p => (Char.ofNat n :: p.1, p.2) := by
  obtain ⟨a, b, c, d, hhex⟩ : ∃ a b c d, Text.hex 'a' 4 n = [a, b, c, d] := ⟨_, _, _, _, rfl⟩
  have hvalue := hexValueOf?_hex h
  have htrailing : isTrailingSurrogate n = false := by
    simp [isTrailingSurrogate]
    omega
  have hleading : isLeadingSurrogate n = false := by
    simp [isLeadingSurrogate]
    omega
  rw [hhex] at hvalue ⊢
  simp only [List.cons_append, List.nil_append, contents, hvalue, htrailing, hleading]
  rfl

theorem contents_plain {c : Char} (hquote : c ≠ '"') (hslash : c ≠ '\\') (h : ¬ c.toNat < 32)
    (s : List Char) : contents (c :: s) = (contents s).map fun p => (c :: p.1, p.2) := by
  rw [contents, if_neg h]
  · rfl
  · exact hquote
  all_goals
    intros
    contradiction

theorem contents_escapeChar (c : Char) (s : List Char) :
    contents (escapeChar c ++ s) = (contents s).map fun p => (c :: p.1, p.2) := by
  unfold escapeChar
  split
  · rfl
  · rfl
  · rfl
  · rfl
  · rfl
  · rename_i hquote hslash _ _ _
    split
    · rename_i hbackspace
      obtain rfl : c = Char.ofNat 8 := by rw [← hbackspace, Char.ofNat_toNat]
      rfl
    · split
      · rename_i hfeed
        obtain rfl : c = Char.ofNat 12 := by rw [← hfeed, Char.ofNat_toNat]
        rfl
      · split
        · rename_i hcontrol
          have hcode := contents_code hcontrol s
          rwa [Char.ofNat_toNat] at hcode
        · rename_i hprinted
          exact contents_plain hquote hslash hprinted s

theorem contents_escaped (cs rest : List Char) :
    contents (cs.flatMap escapeChar ++ '"' :: rest) = .ok (cs, rest) := by
  induction cs with
  | nil => rfl
  | cons c cs ih =>
    rw [List.flatMap_cons, List.append_assoc, contents_escapeChar, ih]
    rfl

variable {r : Reader α} {f : α → Reader β} {a : α} {s t rest : List Char} {c : Char}

@[simp] theorem bind_apply : (r >>= f) s = (r s >>= fun p => f p.1 p.2) := rfl

@[simp] theorem pure_apply : (pure a : Reader α) s = .ok (a, s) := rfl

@[simp] theorem map_apply {g : α → β} : (g <$> r) s = (r s >>= fun p => .ok (g p.1, p.2)) := rfl

@[simp] theorem get_apply : (get : Reader (List Char)) s = .ok (s, s) := rfl

@[simp] theorem peek?_cons : peek? (c :: s) = .ok (some c, c :: s) := rfl

@[simp] theorem advance_cons : advance (c :: s) = .ok ((), s) := rfl

@[simp] theorem ok_bind {k : α → Except JsonFlaw β} : (Except.ok a >>= k) = k a := rfl

@[simp] theorem ok_map {g : α → β} : (g <$> Except.ok a : Except JsonFlaw β) = .ok (g a) := rfl

theorem next?_cons (h : isBlank c = false) : next? (c :: s) = .ok (some c, c :: s) := by
  have hskip : skipBlanks (c :: s) = .ok ((), c :: s) := by
    show Except.ok ((), (c :: s).dropWhile isBlank) = _
    rw [List.dropWhile_cons_of_neg (by simp [h])]
  simp [next?, hskip]

theorem next_cons (h : isBlank c = false) : next (c :: s) = .ok (c, c :: s) := by
  simp [next, next?_cons h]

theorem stringRest_escaped (x : String) :
    stringRest (x.toList.flatMap escapeChar ++ '"' :: rest) = .ok (x, rest) := by
  simp [stringRest, contents_escaped]

theorem string_quoted (x : String) : string (quoted x ++ rest) = .ok (x, rest) := by
  simp [string, quoted, next_cons, isBlank, stringRest_escaped]

def IsEnd (rest : List Char) : Prop := rest.head? = some ',' ∨ rest.head? = some '}'

theorem IsEnd.isPast (h : IsEnd rest) : IsPast rest := by
  intro c hc
  rcases h with h | h
  all_goals
    rw [h] at hc
    obtain rfl := Option.some.inj hc
    decide

/-- A reader makes this of a value inside an object, and leaves what stands after it. -/
def Reads (r : Reader α) (j : Json) (a : α) : Prop :=
  ∀ rest, IsEnd rest → r (j.chars ++ rest) = .ok (a, rest)

theorem Reads.map {j : Json} (h : Reads r j a) (g : α → β) : Reads (g <$> r) j (g a) := by
  intro rest hrest
  rw [map_apply, h rest hrest, ok_bind]

theorem reads_string (x : String) : Reads string (.string x) x := fun rest _ => by
  rw [chars, string_quoted]

theorem reads_bool (b : Bool) : Reads bool (.bool b) b := by
  intro rest _
  cases b <;> simp [chars, bool, next_cons, isBlank, spell]

theorem reads_parsed {read? : String → Option α} {x : String} (h : read? x = some a) :
    Reads (parsed read?) (.string x) a := by
  intro rest hrest
  simp [parsed, reads_string x rest hrest, h]

theorem reads_named {ofName? : String → Option α} {x : String} (h : ofName? x = some a) :
    Reads (named ofName?) (.string x) a := by
  intro rest hrest
  have hparsed := reads_parsed h rest hrest
  simp only [chars, quoted, List.cons_append, List.append_assoc, List.nil_append] at hparsed ⊢
  simp [named, next_cons, isBlank, hparsed]

theorem exists_digit (n : Nat) :
    ∃ d ds, (toString n).toList = d :: ds ∧ Text.isDigit d = true := by
  rw [Text.toList_toString]
  obtain ⟨d, ds, hds⟩ := List.exists_cons_of_ne_nil (@Nat.toDigits_ne_nil n 10)
  exact ⟨d, ds, hds, Text.isDigit_of_mem_toDigits (hds ▸ List.mem_cons_self)⟩

theorem ne_of_isDigit {x : Char} (h : Text.isDigit c = true) (hx : Text.isDigit x = false) :
    c ≠ x := by
  rintro rfl
  exact Bool.noConfusion (hx.symm.trans h)

theorem isBlank_of_isDigit (h : Text.isDigit c = true) : isBlank c = false := by
  cases hblank : isBlank c with
  | false => rfl
  | true =>
    simp only [isBlank, Bool.or_eq_true, beq_iff_eq] at hblank
    rcases hblank with ((rfl | rfl) | rfl) | rfl
    all_goals exact absurd h (by decide)

theorem reads_natural {n limit : Nat} (hn : n < limit) (hbits : n < 2 ^ 64) :
    Reads (natural limit) (.ofNat n) n := by
  intro rest hrest
  have hread : Numeral.read ((toString n).toList ++ rest) = .ok (.natural n, rest) :=
    read_digits hbits hrest.isPast
  obtain ⟨d, ds, hds, hd⟩ := exists_digit n
  rw [hds, List.cons_append] at hread
  rw [ofNat, chars, hds, List.cons_append]
  simp [natural, number, next_cons (isBlank_of_isDigit hd), hd, numeral, hread, hn]

theorem reads_optional_null : Reads (optional r) .null none := by
  intro rest _
  simp [chars, Reader.optional, next?_cons, isBlank, spell]

theorem reads_optional {j : Json} {cs : List Char} (h : Reads r j a) (hchars : j.chars = c :: cs)
    (hblank : isBlank c = false) (hnull : c ≠ 'n') : Reads (Reader.optional r) j (some a) := by
  intro rest hrest
  have hread := h rest hrest
  rw [hchars, List.cons_append] at hread ⊢
  simp [Reader.optional, next?_cons hblank, hread, hnull]

theorem reads_value_string (depth : Nat) (x : String) :
    Reads (value (depth + 1)) (.string x) (.string x) := by
  intro rest _
  simp [value, scalar, chars, quoted, next_cons, isBlank, stringRest_escaped]

theorem numberText_append {digits : List Char} {x : Numeral}
    (h : Numeral.read (digits ++ rest) = .ok (x, rest)) :
    numberText (digits ++ rest) = .ok (String.ofList digits, rest) := by
  have hdiscard : discard numeral (digits ++ rest) = .ok ((), rest) := by
    show (Numeral.read (digits ++ rest) >>= fun p => Except.ok ((), p.2)) = _
    rw [h, ok_bind]
  simp [numberText, hdiscard]

theorem reads_value_natural (depth : Nat) {n : Nat} (hn : n < 2 ^ 64) :
    Reads (value (depth + 1)) (.ofNat n) (.ofNat n) := by
  intro rest hrest
  have htext := numberText_append (read_digits hn hrest.isPast)
  obtain ⟨d, ds, hds, hd⟩ := exists_digit n
  rw [String.ofList_toList, hds, List.cons_append] at htext
  have hplain : ∀ x ∈ ['[', '{', 'n', 't', 'f', '"'], d ≠ x := by
    intro x hx
    have hnone : (['[', '{', 'n', 't', 'f', '"'].all fun x => !Text.isDigit x) = true := rfl
    exact ne_of_isDigit hd (by simpa using List.all_eq_true.1 hnone x hx)
  simp only [List.forall_mem_cons] at hplain
  rw [ofNat, chars, hds, List.cons_append]
  simp [value, scalar, next_cons (isBlank_of_isDigit hd), hd, htext, hplain]

def memberText (m : String × Json) : List Char := quoted m.1 ++ ':' :: m.2.chars

theorem memberChars_eq_map (ms : List (String × Json)) : memberChars ms = ms.map memberText := by
  induction ms with
  | nil => rfl
  | cons m ms ih =>
    obtain ⟨name, j⟩ := m
    rw [memberChars, ih]
    rfl

theorem commas_cons (t : List Char) (ts : List (List Char)) :
    commas (t :: ts) = t ++ ts.flatMap (',' :: ·) := by
  induction ts generalizing t with
  | nil => simp [commas]
  | cons u ts ih =>
    rw [commas, ih, List.flatMap_cons, List.cons_append]
    exact List.cons_ne_nil u ts

inductive Fills (plan : String → σ → KeyPlan σ) : List (String × Json) → σ → σ → Prop where
  | nil (state : σ) : Fills plan [] state state
  | cons {name : String} {j : Json} {ms : List (String × Json)} {before between after : σ}
    {r : Reader σ} (hplan : plan name before = .read r) (hread : Reads r j between)
    (hrest : Fills plan ms between after) : Fills plan ((name, j) :: ms) before after

variable {plan : String → σ → KeyPlan σ} {ms : List (String × Json)} {before after : σ}

theorem key?_first (name : String) : key? true (quoted name ++ rest) = .ok (some name, rest) := by
  simp [key?, quoted, next?_cons, isBlank, stringRest_escaped]

theorem key?_next (name : String) :
    key? false (',' :: (quoted name ++ rest)) = .ok (some name, rest) := by
  simp [key?, quoted, next?_cons, isBlank, stringRest_escaped]

theorem key?_end (first : Bool) : key? first ('}' :: rest) = .ok (none, rest) := by
  simp [key?, next?_cons, isBlank]

theorem colon_cons : colon (':' :: rest) = .ok ((), rest) := by
  simp [colon, next?_cons, isBlank]

theorem isEnd_others (ms : List (String × Json)) (rest : List Char) :
    IsEnd ((ms.map memberText).flatMap (',' :: ·) ++ '}' :: rest) := by
  cases ms with
  | nil => exact .inr rfl
  | cons m ms => exact .inl rfl

theorem members_others (h : Fills plan ms before after) {rounds : Nat}
    (hrounds : ms.length < rounds) (rest : List Char) :
    members plan rounds false before ((ms.map memberText).flatMap (',' :: ·) ++ '}' :: rest) =
      .ok (after, rest) := by
  induction h generalizing rounds with
  | nil state =>
    obtain ⟨rounds, rfl⟩ := Nat.exists_eq_succ_of_ne_zero (Nat.ne_zero_of_lt hrounds)
    simp [members, key?_end]
  | @cons name j ms before between after r hplan hread _ ih =>
    obtain ⟨rounds, rfl⟩ := Nat.exists_eq_succ_of_ne_zero (Nat.ne_zero_of_lt hrounds)
    have hvalue := hread _ (isEnd_others ms rest)
    have hothers := ih (Nat.lt_of_succ_lt_succ hrounds)
    simp [members, memberText, key?_next, hplan, colon_cons, hvalue, hothers]

theorem members_fills (h : Fills plan ms before after) {rounds : Nat}
    (hrounds : ms.length < rounds) (rest : List Char) :
    members plan rounds true before (commas (memberChars ms) ++ '}' :: rest) =
      .ok (after, rest) := by
  obtain ⟨rounds, rfl⟩ := Nat.exists_eq_succ_of_ne_zero (Nat.ne_zero_of_lt hrounds)
  rw [memberChars_eq_map]
  cases h with
  | nil => simp [members, commas, key?_end]
  | @cons name j ms before between after r hplan hread hrest =>
    have hvalue := hread _ (isEnd_others ms rest)
    have hothers := members_others hrest (Nat.lt_of_succ_lt_succ hrounds) rest
    simp [members, commas_cons, memberText, key?_first, hplan, colon_cons, hvalue, hothers]

theorem length_le_others (ms : List (String × Json)) :
    ms.length ≤ ((ms.map memberText).flatMap (',' :: ·)).length := by
  induction ms with
  | nil => exact Nat.le_refl 0
  | cons m ms ih =>
    simp only [List.map_cons, List.flatMap_cons, List.length_append, List.length_cons]
    omega

theorem length_le_commas (ms : List (String × Json)) :
    ms.length ≤ (commas (memberChars ms)).length := by
  rw [memberChars_eq_map]
  cases ms with
  | nil => exact Nat.le_refl 0
  | cons m ms =>
    have hothers := length_le_others ms
    rw [List.map_cons, commas_cons, memberText, quoted]
    simp only [List.length_append, List.length_cons]
    omega

theorem record_object {complete : σ → Option α} {fields : Reader α}
    (h : Fills plan ms before after) (hcomplete : complete after = some a) (rest : List Char) :
    record plan before complete fields ((Json.object ms).chars ++ rest) = .ok (a, rest) := by
  have hrounds : ms.length < (commas (memberChars ms) ++ '}' :: rest).length + 1 := by
    have hlength := length_le_commas ms
    rw [List.length_append]
    omega
  have hmembers := members_fills h hrounds rest
  rw [chars, List.cons_append, List.cons_append, List.append_assoc, List.singleton_append]
  simp only [record, bind_apply, next_cons (by rfl : isBlank '{' = false), ok_bind, advance_cons,
    get_apply, hmembers, hcomplete, pure_apply]

end Reader

theorem decode_text {r : Reader α} {j : Json} {a : α} (h : r (j.chars ++ []) = .ok (a, [])) :
    decode r j.text = .ok a := by
  rw [List.append_nil] at h
  have hblanks : (do
      let a ← r
      Reader.skipBlanks
      return a : Reader α) j.chars = .ok (a, []) := by
    rw [Reader.bind_apply, h]
    rfl
  rw [decode, text, String.toList_ofList, StateT.run, hblanks]
  rfl

end Steward.Json
