import Steward.Proofs.Number.Positional
import Steward.Proofs.Toml.Strings
import Steward.Toml.Reader
/-!
Values of TOML documents are read back as they were written: strings, truth values, natural numbers
below 2^63 and finite numbers of 64 bits.
-/
namespace Steward.Toml

open Number (Binary64 Canonical)
open Number.Decimal (Places)
open Text (Scan IsNumeral isDigit valueOf)
open Text.Scan

variable {c q : Char} {s t rest digits whole fraction : List Char} {n : Nat}

def Stops (rest : List Char) : Prop := ∀ c ∈ rest.head?, isDigit c = false ∧ c ≠ '_'

theorem moreDigits_append (ht : ∀ c ∈ t, isDigit c = true) (hrest : Stops rest) :
    moreDigits isDigit (t ++ rest) = (t, rest) := by
  induction t with
  | nil =>
    rcases rest with _ | ⟨c, rest⟩
    · rfl
    · obtain ⟨hc, hscore⟩ := hrest c rfl
      rw [List.nil_append, moreDigits]
      · simp [hc]
      · intro d s heq
        exact absurd heq hscore
  | cons c t ih =>
    have hc := ht c List.mem_cons_self
    rw [List.cons_append, moreDigits, ih (fun d hd => ht d (List.mem_cons_of_mem c hd))]
    · simp [hc]
    · rintro d s rfl
      exact absurd hc (by decide)

theorem digits_append (hsome : t ≠ []) (ht : ∀ c ∈ t, isDigit c = true) (hrest : Stops rest) :
    Toml.digits isDigit (t ++ rest) = some (t, rest) := by
  obtain ⟨c, cs, rfl⟩ := List.exists_cons_of_ne_nil hsome
  have hc := ht c List.mem_cons_self
  have hmore := moreDigits_append (fun d hd => ht d (List.mem_cons_of_mem c hd)) hrest
  unfold Toml.digits
  rw [List.cons_append, bind_apply, one_cons, if_pos hc, Option.bind_some, bind_apply]
  dsimp only
  rw [hmore]
  rfl

theorem decimalDigits_append (ht : IsNumeral t) (hrest : Stops rest) :
    decimalDigits (t ++ rest) = some (t, rest) := by
  unfold decimalDigits
  obtain ⟨c, cs, rfl⟩ := List.exists_cons_of_ne_nil ht.some
  by_cases hzero : c = '0'
  · subst hzero
    obtain rfl := ht.lone cs rfl
    simp [eat]
  · have hc : ('0' == c) = false := by simpa using fun heq => hzero heq.symm
    have heat : eat ['0'] (c :: cs ++ rest) = some (false, c :: cs ++ rest) :=
      eat_eq_false (by simp [List.isPrefixOf, hc])
    rw [bind_apply, heat]
    exact digits_append ht.some ht.digits hrest

theorem sign_of_digit (h : isDigit c = true) : sign (c :: s) = some (false, c :: s) := by
  have hminus : ('-' == c) = false := by
    rw [beq_eq_false_iff_ne]
    rintro rfl
    exact absurd h (by decide)
  have hplus : ('+' == c) = false := by
    rw [beq_eq_false_iff_ne]
    rintro rfl
    exact absurd h (by decide)
  simp [sign, eat, List.isPrefixOf, hminus, hplus]

def Undated (s : List Char) : Prop :=
  ∀ n digits rest, times isDigit (n + 1) s = some (digits, rest) →
    List.isPrefixOf ['-'] rest = false ∧ List.isPrefixOf [':'] rest = false

theorem undated_of_undigited (h : isDigit c = false) : Undated (c :: s) := by
  intro n digits rest htimes
  simp [times, h] at htimes

theorem dropWhile_of_times (h : times isDigit n s = some (digits, rest)) :
    s.dropWhile isDigit = rest.dropWhile isDigit := by
  induction n generalizing s digits with
  | zero =>
    cases h
    rfl
  | succ n ih =>
    rcases s with _ | ⟨c, s⟩
    · cases h
    · unfold times at h
      rw [bind_apply, one_cons] at h
      split at h
      · rename_i hc
        rw [List.dropWhile_cons_of_pos hc]
        simp only [Option.bind_some, bind_apply, pure_apply, Option.bind_eq_some_iff,
          Option.some.injEq, Prod.mk.injEq] at h
        obtain ⟨⟨taken, after⟩, htimes, -, rfl⟩ := h
        exact ih htimes
      · cases h

theorem undated_of_digits (ht : ∀ c ∈ t, isDigit c = true) (hc : isDigit c = false)
    (hdash : c ≠ '-') (hcolon : c ≠ ':') : Undated (t ++ c :: s) := by
  intro n digits rest htimes
  have hdrop := dropWhile_of_times htimes
  rw [List.dropWhile_append_of_pos ht, List.dropWhile_cons_of_neg (by simp [hc])] at hdrop
  rcases rest with _ | ⟨d, rest⟩
  · cases hdrop
  · constructor
    all_goals
      rw [List.isPrefixOf, List.isPrefixOf, Bool.and_true, beq_eq_false_iff_ne]
      rintro rfl
      rw [List.dropWhile_cons_of_neg (by decide)] at hdrop
      cases hdrop
      contradiction

theorem times_of_pair {low high : Nat} (h : pair low high s = some (n, rest)) :
    ∃ digits, times isDigit 2 s = some (digits, rest) := by
  unfold pair at h
  rw [bind_apply] at h
  rcases htimes : times isDigit 2 s with _ | ⟨digits, after⟩
  · rw [htimes] at h
    cases h
  · rw [htimes, Option.bind_some] at h
    split at h
    · cases h
    · cases h
      exact ⟨digits, rfl⟩

theorem moment_eq_none (h : Undated s) : moment s = none := by
  have hdate : date s = none := by
    unfold date
    rw [bind_apply]
    rcases htimes : times isDigit 4 s with _ | ⟨digits, rest⟩
    · rfl
    · rw [Option.bind_some, bind_apply, exactly_eq_none (h 3 digits rest htimes).1]
      rfl
  have htime : timeOfDay s = none := by
    unfold timeOfDay
    rw [bind_apply, discard_apply]
    rcases hpair : pair 0 23 s with _ | ⟨n, rest⟩
    · rfl
    · obtain ⟨digits, htimes⟩ := times_of_pair hpair
      rw [Option.map_some, Option.bind_some, bind_apply,
        exactly_eq_none (h 1 digits rest htimes).2]
      rfl
  unfold moment dateTime
  simp [maybe_of_eq_none hdate, htime]

theorem truth_eq_none (ht : List.isPrefixOf ['t', 'r', 'u', 'e'] s = false)
    (hf : List.isPrefixOf ['f', 'a', 'l', 's', 'e'] s = false) : truth s = none := by
  simp [truth, eat_eq_false ht, exactly_eq_none hf]

theorem stops_newline (rest : List Char) : Stops ('\n' :: rest) := by
  intro c hc
  obtain rfl := Option.some.inj hc
  decide

theorem stops_point (rest : List Char) : Stops ('.' :: rest) := by
  intro c hc
  obtain rfl := Option.some.inj hc
  decide

theorem sign_numeral (ht : IsNumeral t) (rest : List Char) :
    sign (t ++ rest) = some (false, t ++ rest) := by
  obtain ⟨c, cs, rfl⟩ := List.exists_cons_of_ne_nil ht.some
  exact sign_of_digit (ht.digits c List.mem_cons_self)

theorem fractional_eq_none (ht : IsNumeral t) (rest : List Char) :
    fractional (t ++ '\n' :: rest) = none := by
  have hpoint : (do exactly ['.']; Toml.digits isDigit : Scan (List Char)) ('\n' :: rest) = none :=
    rfl
  have hscale : exponent (Toml.digits isDigit) ('\n' :: rest) = none := rfl
  unfold fractional
  rw [bind_apply, sign_numeral ht, Option.bind_some, bind_apply,
    decimalDigits_append ht (stops_newline rest), Option.bind_some, bind_apply,
    maybe_of_eq_none hpoint, Option.bind_some, bind_apply, maybe_of_eq_none hscale]
  rfl

theorem wholeNumber_append (ht : IsNumeral t) (rest : List Char) :
    wholeNumber (t ++ '\n' :: rest) =
      if valueOf t < 2 ^ 63 then some (.whole (valueOf t), '\n' :: rest) else none := by
  have hbase : ∀ letter, isDigit letter = false → letter ≠ '\n' →
      eat ['0', letter] (t ++ '\n' :: rest) = some (false, t ++ '\n' :: rest) := by
    intro letter hletter hline
    apply eat_eq_false
    obtain ⟨c, cs, rfl⟩ := List.exists_cons_of_ne_nil ht.some
    rcases cs with _ | ⟨d, cs⟩
    · simp [List.isPrefixOf, hline]
    · have hd : letter ≠ d := by
        rintro rfl
        rw [ht.digits letter (by simp)] at hletter
        cases hletter
      simp [List.isPrefixOf, hd]
  unfold wholeNumber
  rw [bind_apply, hbase 'x' rfl (by decide), Option.bind_some, if_neg Bool.false_ne_true, bind_apply,
    hbase 'o' rfl (by decide), Option.bind_some, if_neg Bool.false_ne_true, bind_apply,
    hbase 'b' rfl (by decide), Option.bind_some, if_neg Bool.false_ne_true, bind_apply,
    sign_numeral ht, Option.bind_some, bind_apply, decimalDigits_append ht (stops_newline rest),
    Option.bind_some]
  unfold inRange
  by_cases h : valueOf t < 2 ^ 63
  · rw [if_pos h, if_neg Bool.false_ne_true, if_neg (by simp; omega)]
    rfl
  · rw [if_neg h, if_neg Bool.false_ne_true, if_pos (by simp; omega)]
    rfl

theorem fractional_append (negative : Bool) (hwhole : IsNumeral whole) (hsome : fraction ≠ [])
    (hfraction : ∀ c ∈ fraction, isDigit c = true) (rest : List Char) {x : Binary64}
    (hx : Binary64.ofDecimal negative (valueOf (whole ++ fraction)) (-(fraction.length : Int)) = x)
    (hfinite : x.isInfinite = false) :
    fractional ((if negative then ['-'] else []) ++ (whole ++ '.' :: (fraction ++ '\n' :: rest))) =
      some (.real x, '\n' :: rest) := by
  have hsign : sign ((if negative then ['-'] else []) ++
      (whole ++ '.' :: (fraction ++ '\n' :: rest))) =
        some (negative, whole ++ '.' :: (fraction ++ '\n' :: rest)) := by
    cases negative with
    | true => rfl
    | false => exact sign_numeral hwhole _
  have hpoint : (do exactly ['.']; Toml.digits isDigit : Scan (List Char))
      ('.' :: (fraction ++ '\n' :: rest)) = some (fraction, '\n' :: rest) :=
    digits_append hsome hfraction (stops_newline rest)
  have hscale : exponent (Toml.digits isDigit) ('\n' :: rest) = none := rfl
  unfold fractional
  rw [bind_apply, hsign, Option.bind_some, bind_apply, decimalDigits_append hwhole (stops_point _),
    Option.bind_some, bind_apply, maybe_of_eq_some hpoint, Option.bind_some, bind_apply,
    maybe_of_eq_none hscale, Option.bind_some]
  simp [hx, hfinite]

structure Spelled (negative : Bool) (x : Binary64) (whole fraction : List Char) : Prop where
  numeral : IsNumeral whole
  some : fraction ≠ []
  digits : ∀ c ∈ fraction, isDigit c = true
  made : Binary64.ofDecimal negative (valueOf (whole ++ fraction)) (-(fraction.length : Int)) = x

theorem spelled_zero (negative : Bool) : Spelled negative
    (.finite negative 0 (-1074) (by decide)) ['0'] ['0'] where
  numeral := Text.isNumeral_zero
  some := by decide
  digits := Text.isNumeral_zero.digits
  made := by cases negative <;> decide +kernel

theorem spelled_of_places {negative : Bool} {m : Nat} {e : Int} (h : Canonical m e) (hm : 0 < m)
    (hplaces : Places (Number.Decimal.shortest m e) whole fraction) (hsome : fraction ≠ []) :
    Spelled negative (.finite negative m e h) whole fraction where
  numeral := hplaces.numeral
  some := hsome
  digits := hplaces.digits
  made := by
    apply Binary64.ofDecimal_eq h hm
    rw [hplaces.value]
    exact Number.Decimal.roundsTo_shortest h hm

theorem realText_finite {negative : Bool} {m : Nat} {e : Int} (h : Canonical m e) :
    realText (.finite negative m e h) = (if negative then ['-'] else []) ++
      let body := if m = 0 then ['0'] else (Number.Decimal.shortest m e).text
      if '.' ∈ body then body else body ++ ['.', '0'] := by
  unfold realText Binary64.text
  dsimp only
  rw [String.toList_ofList]
  generalize (if m = 0 then ['0'] else (Number.Decimal.shortest m e).text) = body
  cases negative with
  | false => simp
  | true => by_cases hpoint : '.' ∈ body <;> simp [hpoint]

theorem notMem_of_digits (h : ∀ c ∈ t, isDigit c = true) : '.' ∉ t :=
  fun hin => absurd (h '.' hin) (by decide)

theorem realText_spec (negative : Bool) {m : Nat} {e : Int} (h : Canonical m e) :
    ∃ whole fraction, Spelled negative (.finite negative m e h) whole fraction ∧
      realText (.finite negative m e h) =
        (if negative then ['-'] else []) ++ (whole ++ '.' :: fraction) := by
  rw [realText_finite]
  dsimp only
  rcases Nat.eq_zero_or_pos m with rfl | hm
  · obtain rfl : e = -1074 := h.2.2.2.resolve_left (by decide)
    exact ⟨['0'], ['0'], spelled_zero negative, rfl⟩
  · have hdigits : 0 < (Number.Decimal.shortest m e).digits :=
      (Number.Decimal.roundsTo_shortest h hm).digits_pos h hm
    obtain ⟨whole, fraction, hplaces, htext⟩ := Number.Decimal.text_spec hdigits
    rw [if_neg hm.ne', htext]
    by_cases hsome : fraction = []
    · have hzero := (Number.Decimal.places_zeros 1).2 hplaces
      rw [if_pos hsome, if_neg (notMem_of_digits hplaces.numeral.digits)]
      subst hsome
      exact ⟨whole, ['0'], spelled_of_places h hm hzero (by decide), rfl⟩
    · have hpoint : '.' ∈ whole ++ '.' :: fraction := by simp
      rw [if_neg hsome, if_pos hpoint]
      exact ⟨whole, fraction, spelled_of_places h hm hplaces hsome, rfl⟩

structure Spells (t : List Char) (found : Option Setting) : Prop where
  first : ∃ c s, t = c :: s ∧ isBlank c = false
  read : ∀ rest, value (nesting - 1) (t ++ '\n' :: rest) = found.map fun s => (s, '\n' :: rest)

theorem rightUnique_spells : Relator.RightUnique Spells := by
  intro t found found' h h'
  have hsome : found.map (fun s => (s, ['\n'])) = found'.map fun s => (s, ['\n']) :=
    (h.read []).symm.trans (h'.read [])
  exact Option.map_injective (fun _ _ heq => (Prod.mk.inj heq).1) hsome

theorem value_eq_scalar (hlist : c ≠ '[') (htable : c ≠ '\x7b') (depth : Nat) :
    value (depth + 1) (c :: s) = scalar (c :: s) := by
  have hl : eat ['['] (c :: s) = some (false, c :: s) :=
    eat_eq_false (by simpa [List.isPrefixOf] using hlist.symm)
  have ht : eat ['\x7b'] (c :: s) = some (false, c :: s) :=
    eat_eq_false (by simpa [List.isPrefixOf] using htable.symm)
  unfold value
  rw [bind_apply, get_apply, Option.bind_some]
  dsimp only
  rw [bind_apply, hl, Option.bind_some, if_neg Bool.false_ne_true, bind_apply, ht,
    Option.bind_some, if_neg Bool.false_ne_true]

theorem scalar_quoted (hc : c = '"' ∨ c = '\'') :
    scalar (c :: s) = (anyString (c :: s)).map fun r => (.text r.1, r.2) := by
  unfold scalar
  rw [bind_apply, peek?_apply, Option.bind_some]
  rcases hc with rfl | rfl
  · exact map_apply
  · exact map_apply

theorem scalar_unquoted (hdouble : c ≠ '"') (hsingle : c ≠ '\'') :
    scalar (c :: s) = (truth <|> moment <|> fractional <|> named <|> wholeNumber) (c :: s) := by
  unfold scalar
  rw [bind_apply, peek?_apply, Option.bind_some]
  simp [hdouble, hsingle]

theorem spells_stringText (x : String) : Spells (stringText x) (some (.text x)) := by
  obtain ⟨c, s, hs, hc⟩ := inForm_eq_cons (.ofString x.toList) x.toList
  have htext : stringText x = c :: s := hs
  constructor
  · exact ⟨c, s, htext, by rcases hc with rfl | rfl <;> rfl⟩
  · intro rest
    have hread := anyString_stringText x ('\n' :: rest) ⟨by simp, by simp⟩
    have hbracket : c ≠ '[' ∧ c ≠ '\x7b' := by rcases hc with rfl | rfl <;> decide
    rw [htext, List.cons_append] at hread ⊢
    rw [show nesting - 1 = 78 + 1 from rfl, value_eq_scalar hbracket.1 hbracket.2,
      scalar_quoted hc, hread]
    rfl

theorem spells_truthText (b : Bool) : Spells (truthText b) (some (.flag b)) := by
  cases b with
  | true => exact ⟨⟨_, _, rfl, rfl⟩, fun _ => rfl⟩
  | false => exact ⟨⟨_, _, rfl, rfl⟩, fun _ => rfl⟩

theorem isBlank_of_numeric (hc : isDigit c = true ∨ c = '-') : isBlank c = false := by
  unfold isBlank
  rw [Bool.or_eq_false_iff, beq_eq_false_iff_ne, beq_eq_false_iff_ne]
  constructor
  all_goals
    rintro rfl
    simp [isDigit] at hc

theorem value_numeric (ht : t = c :: s) (hc : isDigit c = true ∨ c = '-') (hundated : Undated t) :
    value (nesting - 1) t = (fractional <|> named <|> wholeNumber) t := by
  subst ht
  have hother : ∀ d, isDigit d = false → d ≠ '-' → c ≠ d := by
    rintro d hdigit hminus rfl
    rcases hc with hc | hc
    · rw [hdigit] at hc
      cases hc
    · exact hminus hc
  have htruth : truth (c :: s) = none := by
    have ht := (hother 't' rfl (by decide)).symm
    have hf := (hother 'f' rfl (by decide)).symm
    exact truth_eq_none (by simp [List.isPrefixOf, ht]) (by simp [List.isPrefixOf, hf])
  rw [show nesting - 1 = 78 + 1 from rfl,
    value_eq_scalar (hother '[' rfl (by decide)) (hother '\x7b' rfl (by decide)),
    scalar_unquoted (hother '"' rfl (by decide)) (hother '\'' rfl (by decide)), orElse_apply, htruth,
    orElse_apply, moment_eq_none hundated]
  rfl

theorem named_eq_none (ht : IsNumeral t) (rest : List Char) : named (t ++ rest) = none := by
  obtain ⟨c, cs, rfl⟩ := List.exists_cons_of_ne_nil ht.some
  have hc := ht.digits c List.mem_cons_self
  have hi : 'i' ≠ c := by
    rintro rfl
    cases hc
  have hn : 'n' ≠ c := by
    rintro rfl
    cases hc
  have heat : eat ['i', 'n', 'f'] (c :: cs ++ rest) = some (false, c :: cs ++ rest) :=
    eat_eq_false (by simp [List.isPrefixOf, hi])
  have hexactly : exactly ['n', 'a', 'n'] (c :: cs ++ rest) = none :=
    exactly_eq_none (by simp [List.isPrefixOf, hn])
  unfold named
  rw [bind_apply, sign_numeral ht, Option.bind_some, bind_apply, heat, Option.bind_some,
    if_neg Bool.false_ne_true, bind_apply, hexactly]
  rfl

theorem spells_natural (n : Nat) :
    Spells (toString n).toList (if n < 2 ^ 63 then some (.whole n) else none) := by
  have ht := Text.isNumeral_toDigits n
  obtain ⟨c, cs, hcs⟩ := List.exists_cons_of_ne_nil ht.some
  have hc := ht.digits c (hcs ▸ List.mem_cons_self)
  rw [Text.toList_toString]
  constructor
  · exact ⟨c, cs, hcs, isBlank_of_numeric (.inl hc)⟩
  · intro rest
    have hundated := undated_of_digits (s := rest) ht.digits (c := '\n') rfl (by decide) (by decide)
    have hread := wholeNumber_append ht rest
    rw [Text.valueOf_toDigits] at hread
    have htext : Nat.toDigits 10 n ++ '\n' :: rest = c :: (cs ++ '\n' :: rest) := by
      rw [hcs, List.cons_append]
    rw [value_numeric htext (.inl hc) hundated, orElse_apply, fractional_eq_none ht, orElse_apply,
      named_eq_none ht, hread]
    split <;> rfl

theorem exists_first (negative : Bool) (hwhole : IsNumeral whole) (rest : List Char) :
    ∃ c s, (if negative then ['-'] else []) ++ (whole ++ '.' :: rest) = c :: s ∧
      (isDigit c = true ∨ c = '-') ∧
      Undated ((if negative then ['-'] else []) ++ (whole ++ '.' :: rest)) := by
  obtain ⟨c, cs, hcs⟩ := List.exists_cons_of_ne_nil hwhole.some
  cases negative with
  | true => exact ⟨'-', whole ++ '.' :: rest, rfl, .inr rfl, undated_of_undigited rfl⟩
  | false =>
    refine ⟨c, cs ++ '.' :: rest, ?_, .inl (hwhole.digits c (hcs ▸ List.mem_cons_self)), ?_⟩
    · rw [if_neg Bool.false_ne_true, List.nil_append, hcs, List.cons_append]
    · exact undated_of_digits hwhole.digits rfl (by decide) (by decide)

theorem spells_realText (negative : Bool) {m : Nat} {e : Int} (h : Canonical m e) :
    Spells (realText (.finite negative m e h)) (some (.real (.finite negative m e h))) := by
  obtain ⟨whole, fraction, hspelled, htext⟩ := realText_spec negative h
  rw [htext]
  constructor
  · obtain ⟨c, s, hfirst, hc, -⟩ := exists_first negative hspelled.numeral fraction
    exact ⟨c, s, hfirst, isBlank_of_numeric hc⟩
  · intro rest
    have hread := fractional_append negative hspelled.numeral hspelled.some hspelled.digits rest
      hspelled.made rfl
    obtain ⟨c, s, hfirst, hc, hundated⟩ :=
      exists_first negative hspelled.numeral (fraction ++ '\n' :: rest)
    rw [List.append_assoc, List.append_assoc, List.cons_append, value_numeric hfirst hc hundated,
      orElse_apply, hread]
    rfl

end Steward.Toml
