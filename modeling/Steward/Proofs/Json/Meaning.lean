import Steward.Proofs.Json.Skipping
/-!
What spelled values mean. A string means the text that its glyphs spell, if they spell one. A
number means a natural number if it is written in digits alone. A value of the wrong kind means
nothing.
-/
namespace Steward.Json

variable {α : Type}

namespace Reader

theorem toOption_letter {e : Except JsonFlaw (List Char × List Char)} {cs? : Option (List Char)}
    {s : List Char} (c : Char) (h : e.toOption = cs?.map fun cs => (cs, s)) :
    (do
      let (cs, rest) ← e
      return (c :: cs, rest) : Except JsonFlaw (List Char × List Char)).toOption =
        (cs?.map (c :: ·)).map fun cs => (cs, s) := by
  cases e with
  | error flaw =>
    cases cs? with
    | none => rfl
    | some cs => cases h
  | ok p =>
    cases cs? with
    | none => cases h
    | some cs =>
      obtain rfl := Option.some.inj h
      rfl

theorem contents_lone {a b c d : Char} {n : Nat} {s : List Char}
    (hcode : Text.hexValueOf? [a, b, c, d] = some n) (hleading : isLeadingSurrogate n = true)
    (hs : ∀ r, s ≠ '\\' :: 'u' :: r) :
    (contents ('\\' :: 'u' :: a :: b :: c :: d :: s)).toOption = none := by
  have htrailing : isTrailingSurrogate n = false := by
    simp only [isLeadingSurrogate, isTrailingSurrogate, Bool.and_eq_true, decide_eq_true_eq,
      Bool.and_eq_false_iff, decide_eq_false_iff_not] at hleading ⊢
    omega
  simp only [contents, hcode, htrailing, hleading, Bool.false_eq_true, if_false, if_true]
  split
  · exact absurd rfl (hs _)
  · exact absurd rfl (hs _)
  all_goals rfl

theorem ne_code {gs : List Glyph} {s : List Char}
    (h : ∀ a b c d n hcode gs', gs = .code a b c d n hcode :: gs' → False) (r : List Char) :
    gs.flatMap Glyph.chars ++ '"' :: s ≠ '\\' :: 'u' :: r := by
  intro heq
  cases gs with
  | nil => cases heq
  | cons g gs =>
    cases g with
    | plain c _ hslash _ => exact hslash (List.cons.inj heq).1
    | short letter c hletter =>
      exact ne_u_of_shortEscape? hletter (List.cons.inj (List.cons.inj heq).2).1
    | code a b c d n hcode => exact h a b c d n hcode gs rfl

theorem contents_glyphs (gs : List Glyph) (s : List Char) :
    (contents (gs.flatMap Glyph.chars ++ '"' :: s)).toOption =
      (Glyph.letters? gs).map fun cs => (cs, s) := by
  fun_induction Glyph.letters? gs with
  | case1 => rfl
  | case2 c hquote hslash hprinted gs ih =>
    rw [List.flatMap_cons, Glyph.chars, List.singleton_append, List.cons_append, contents,
      if_neg hprinted]
    · exact toOption_letter c ih
    · exact hquote
    all_goals
      intros
      contradiction
  | case3 letter c hletter gs ih =>
    have hu := ne_u_of_shortEscape? hletter
    rw [List.flatMap_cons, Glyph.chars, List.append_assoc, List.cons_append,
      List.singleton_append, contents]
    · rw [hletter]
      exact toOption_letter c ih
    all_goals
      intros
      contradiction
  | case4 a b c d n hcode gs htrailing =>
    simp only [List.flatMap_cons, Glyph.chars, List.cons_append, List.nil_append, contents, hcode,
      htrailing, if_true]
    rfl
  | case5 a b c d n hcode htrailing hleading e f g h m hcode' gs htrailing' ih =>
    simp only [List.flatMap_cons, Glyph.chars, List.cons_append, List.nil_append, contents, hcode,
      htrailing, hleading, hcode', htrailing', if_true]
    exact toOption_letter _ ih
  | case6 a b c d n hcode htrailing hleading e f g h m hcode' gs htrailing' =>
    simp only [List.flatMap_cons, Glyph.chars, List.cons_append, List.nil_append, contents, hcode,
      htrailing, hleading, hcode', htrailing', if_true]
    rfl
  | case7 a b c d n hcode gs htrailing hleading hlone =>
    exact contents_lone hcode hleading (ne_code hlone)
  | case8 a b c d n hcode gs htrailing hleading ih =>
    simp only [List.flatMap_cons, Glyph.chars, List.cons_append, List.nil_append, contents, hcode,
      htrailing, hleading]
    exact toOption_letter _ ih

end Reader

def Figure.natural? (f : Figure) : Option Nat :=
  if f.negative || f.fraction.isSome || f.exponent.isSome then none
  else some (Text.valueOf f.whole.chars)

namespace Numeral

open Nat (ofDigitChars)

theorem valueOf_eq (digits : List Char) : Text.valueOf digits = ofDigitChars 10 digits 0 := rfl

theorem eq_of_leading {digits : List Char} {n m : Nat} (h : leading n digits = (m, [])) :
    m = ofDigitChars 10 digits n := by
  induction digits generalizing n with
  | nil => exact (Prod.mk.inj h).1.symm
  | cons d ds ih =>
    rw [leading] at h
    split at h
    · rw [Nat.ofDigitChars_cons, ih h, Nat.mul_comm]
      rfl
    · cases (Prod.mk.inj h).2

variable {negative : Bool} {s rest : List Char} {n m : Nat} {start : Int}

theorem assemble_ne_natural (after : List Char) :
    (do return (← assemble negative n start, after) : Except JsonFlaw (Numeral × List Char)) ≠
      .ok (.natural m, rest) := by
  rw [assemble]
  intro h
  cases hscale : scale 8 (.ofNat n) start with
  | error flaw =>
    rw [hscale] at h
    cases h
  | ok f =>
    rw [hscale] at h
    cases (Prod.mk.inj (Except.ok.inj h)).1

theorem exponentPart_ne_natural : exponentPart negative n start s ≠ .ok (.natural m, rest) := by
  intro h
  unfold exponentPart at h
  split at h
  rename_i down digits _
  dsimp only at h
  by_cases hempty : (digits.takeWhile Text.isDigit).isEmpty = true
  · rw [if_pos hempty] at h
    cases h
  · rw [if_neg hempty] at h
    by_cases hlimit : Text.valueOf (digits.takeWhile Text.isDigit) < exponentLimit
    · rw [if_pos hlimit] at h
      exact assemble_ne_natural _ h
    · rw [if_neg hlimit] at h
      split at h
      · cases h
      · cases (Prod.mk.inj (Except.ok.inj h)).1

theorem fractionPart_ne_natural : fractionPart negative n start s ≠ .ok (.natural m, rest) := by
  intro h
  unfold fractionPart afterDigits at h
  dsimp only at h
  split at h
  · cases h
  · split at h
    · exact exponentPart_ne_natural h
    · exact exponentPart_ne_natural h
    · exact assemble_ne_natural _ h

theorem of_unsigned_natural (h : unsigned negative s = .ok (.natural n, rest)) :
    negative = false ∧ leading 0 (s.takeWhile Text.isDigit) = (n, []) ∧
      rest = s.drop (s.takeWhile Text.isDigit).length ∧
        ∀ c ∈ rest.head?, c ≠ '.' ∧ c ≠ 'e' ∧ c ≠ 'E' := by
  unfold unsigned at h
  dsimp only at h
  split at h
  · cases h
  · cases h
  · split at h
    · exact absurd h fractionPart_ne_natural
    · exact absurd h exponentPart_ne_natural
    · exact absurd h exponentPart_ne_natural
    · rename_i hpoint he hE
      split at h
      · rename_i hdropped
        split at h
        · rename_i hsign
          obtain ⟨hnatural, hrest⟩ := Prod.mk.inj (Except.ok.inj h)
          obtain rfl := Numeral.natural.inj hnatural
          refine ⟨by simpa using hsign, ?_, hrest.symm, ?_⟩
          · rw [List.isEmpty_iff] at hdropped
            rw [← hdropped]
          · rw [← hrest]
            intro c hc
            obtain ⟨cs, hcs⟩ := List.head?_eq_some_iff.1 hc
            refine ⟨?_, ?_, ?_⟩
            all_goals
              rintro rfl
              first
              | exact hpoint _ hcs
              | exact he _ hcs
              | exact hE _ hcs
        · split at h
          · cases (Prod.mk.inj (Except.ok.inj h)).1
          · cases (Prod.mk.inj (Except.ok.inj h)).1
      · exact absurd h (assemble_ne_natural _)

end Numeral

namespace Figure

variable {f : Figure} {rest s : List Char} {n : Nat}

theorem natural?_eq_some_iff : f.natural? = some n ↔
    f.negative = false ∧ f.fraction = none ∧ f.exponent = none ∧
      Nat.ofDigitChars 10 f.whole.chars 0 = n := by
  rw [natural?]
  simp [and_assoc, Numeral.valueOf_eq]

theorem chars_of_natural? (h : f.natural? = some n) : f.chars = f.whole.chars := by
  obtain ⟨hsign, hfraction, hexponent, -⟩ := natural?_eq_some_iff.1 h
  rw [chars, hsign, if_neg (by decide), unsigned, tail, power, hfraction, hexponent]
  exact List.append_nil _

theorem read_natural (h : f.natural? = some n) (hn : n < 2 ^ 64) (hrest : IsPast rest) :
    Numeral.read (f.chars ++ rest) = .ok (.natural n, rest) := by
  obtain ⟨-, -, -, hvalue⟩ := natural?_eq_some_iff.1 h
  have hzero : ∀ ds, f.whole.chars = '0' :: ds → ds = [] := by
    intro ds hds
    have hplain := f.plain (by rw [hds]; rfl)
    rw [hds] at hplain
    exact (List.cons.inj hplain).2
  have hread := Json.read_plain f.whole.some f.whole.digits hzero (by rwa [hvalue]) hrest
  rwa [hvalue, ← chars_of_natural? h] at hread

theorem eq_none_of_head (h : ∀ c ∈ (f.tail ++ rest).head?, c ≠ '.' ∧ c ≠ 'e' ∧ c ≠ 'E') :
    f.fraction = none ∧ f.exponent = none := by
  rw [tail, power] at h
  cases hfraction : f.fraction with
  | some ds =>
    rw [hfraction] at h
    exact absurd rfl (h '.' rfl).1
  | none =>
    cases hexponent : f.exponent with
    | none => exact ⟨rfl, rfl⟩
    | some e =>
      rw [hfraction, hexponent] at h
      obtain ⟨-, he, hE⟩ := h e.letter rfl
      rcases e.isLetter with hletter | hletter
      · exact absurd hletter he
      · exact absurd hletter hE

theorem natural?_of_read (h : Numeral.read (f.chars ++ rest) = .ok (.natural n, s))
    (hrest : IsPast rest) : f.natural? = some n := by
  rw [chars] at h
  cases hsign : f.negative with
  | true =>
    rw [hsign, if_pos rfl, List.cons_append, Numeral.read] at h
    exact absurd (Numeral.of_unsigned_natural h).1 (by decide)
  | false =>
    have htail := Reader.undigited_tail f hrest
    obtain ⟨d, ds, hds, hd⟩ := f.whole.exists_cons
    rw [hsign, if_neg (by decide), unsigned, List.append_assoc, Numeral.read] at h
    · obtain ⟨-, hleading, hs, hplain⟩ := Numeral.of_unsigned_natural h
      rw [takeWhile_digits f.whole.digits htail] at hleading hs
      rw [hs, List.drop_left] at hplain
      obtain ⟨hfraction, hexponent⟩ := eq_none_of_head hplain
      exact natural?_eq_some_iff.2
        ⟨hsign, hfraction, hexponent, (Numeral.eq_of_leading hleading).symm⟩
    · intro r hr
      rw [hds, List.cons_append] at hr
      exact Reader.ne_of_isDigit hd (by decide) (List.cons.inj hr).1

end Figure

namespace Spelling

def text? : Spelling → Option String
  | string gs => Glyph.text? gs
  | _ => none

def bool? : Spelling → Option Bool
  | bool b => some b
  | _ => none

def null? : Spelling → Option Unit
  | null => some ()
  | _ => none

def natural? (limit : Nat) : Spelling → Option Nat
  | number f => f.natural?.filter (· < limit)
  | _ => none

def optional? (read? : Spelling → Option α) : Spelling → Option (Option α)
  | null => some none
  | v => (read? v).map some

/-- A name by itself, or as the only key of an object whose value is null. -/
def named? (ofName? : String → Option α) : Spelling → Option α
  | string gs => (Glyph.text? gs).bind ofName?
  | object [(gs, null)] => (Glyph.text? gs).bind ofName?
  | _ => none

end Spelling

end Steward.Json
