import Steward.Proofs.Json.Reading
/-!
How JSON is spelled. A value is kept here with its spelling: how each character of a string is
escaped, which digits a number is written in. Only what the grammar admits can be spelled.

The text of a value is its tokens, and between any two of these, before the first and after the
last one may stand blanks.
-/
namespace Steward.Json

inductive Glyph where
  | plain (c : Char) (hquote : c ≠ '"') (hslash : c ≠ '\\') (hprinted : ¬ c.toNat < 32)
  | short (letter c : Char) (hletter : Reader.shortEscape? letter = some c)
  | code (a b c d : Char) (n : Nat) (hcode : Text.hexValueOf? [a, b, c, d] = some n)

namespace Glyph

def chars : Glyph → List Char
  | plain c _ _ _ => [c]
  | short letter _ _ => ['\\', letter]
  | code a b c d _ _ => ['\\', 'u', a, b, c, d]

def paired (n m : Nat) : Char := Char.ofNat (0x10000 + (n - 0xd800) * 0x400 + (m - 0xdc00))

def letters? : List Glyph → Option (List Char)
  | [] => some []
  | plain c _ _ _ :: gs => (letters? gs).map (c :: ·)
  | short _ c _ :: gs => (letters? gs).map (c :: ·)
  | code _ _ _ _ n _ :: gs =>
    if Reader.isTrailingSurrogate n then none
    else if Reader.isLeadingSurrogate n then
      match gs with
      | code _ _ _ _ m _ :: gs =>
        if Reader.isTrailingSurrogate m then (letters? gs).map (paired n m :: ·) else none
      | _ => none
    else (letters? gs).map (Char.ofNat n :: ·)

def text? (gs : List Glyph) : Option String := (letters? gs).map String.ofList

def plainly (text : String) : List Glyph := text.toList.filterMap fun c =>
  if h : c ≠ '"' ∧ c ≠ '\\' ∧ ¬ c.toNat < 32 then some (plain c h.1 h.2.1 h.2.2) else none

def inQuotes (gs : List Glyph) : List Char := '"' :: (gs.flatMap chars ++ ['"'])

end Glyph

structure Digits where
  chars : List Char
  some : chars ≠ []
  digits : ∀ c ∈ chars, Text.isDigit c = true

theorem Digits.exists_cons (ds : Digits) :
    ∃ d cs, ds.chars = d :: cs ∧ Text.isDigit d = true := by
  obtain ⟨d, cs, h⟩ := List.exists_cons_of_ne_nil ds.some
  exact ⟨d, cs, h, ds.digits d (by rw [h]; exact List.mem_cons_self)⟩

structure Exponent where
  letter : Char
  isLetter : letter = 'e' ∨ letter = 'E'
  sign : Option Char
  isSign : ∀ c ∈ sign, c = '+' ∨ c = '-'
  digits : Digits

structure Figure where
  negative : Bool
  whole : Digits
  plain : whole.chars.head? = some '0' → whole.chars = ['0']
  fraction : Option Digits
  exponent : Option Exponent

def Exponent.chars (e : Exponent) : List Char := e.letter :: (e.sign.toList ++ e.digits.chars)

namespace Figure

def power (f : Figure) : List Char := (f.exponent.map Exponent.chars).getD []

def tail (f : Figure) : List Char := (f.fraction.map ('.' :: ·.chars)).getD [] ++ f.power

def unsigned (f : Figure) : List Char := f.whole.chars ++ f.tail

def chars (f : Figure) : List Char := if f.negative then '-' :: f.unsigned else f.unsigned

end Figure

/-- A value as it is spelled. -/
inductive Spelling where
  | null
  | bool (value : Bool)
  | number (figure : Figure)
  | string (glyphs : List Glyph)
  | array (items : List Spelling)
  | object (members : List (List Glyph × Spelling))

abbrev Token := List Char

def parted : List (List Token) → List Token
  | [] => []
  | part :: parts => part ++ parts.flatMap ([','] :: ·)

namespace Spelling

abbrev Member := List Glyph × Spelling

mutual

def tokens : Spelling → List Token
  | null => [['n', 'u', 'l', 'l']]
  | bool true => [['t', 'r', 'u', 'e']]
  | bool false => [['f', 'a', 'l', 's', 'e']]
  | number f => [f.chars]
  | string gs => [Glyph.inQuotes gs]
  | array vs => ['['] :: (parted (itemTokens vs) ++ [[']']])
  | object ms => ['{'] :: (parted (memberTokens ms) ++ [['}']])

def itemTokens : List Spelling → List (List Token)
  | [] => []
  | v :: vs => tokens v :: itemTokens vs

def memberTokens : List (List Glyph × Spelling) → List (List Token)
  | [] => []
  | (gs, v) :: ms => (Glyph.inQuotes gs :: [':'] :: tokens v) :: memberTokens ms

end

theorem itemTokens_eq_map (vs : List Spelling) : itemTokens vs = vs.map tokens := by
  induction vs with
  | nil => rfl
  | cons v vs ih => rw [itemTokens, ih, List.map_cons]

/-- A member: its key, a colon and its value. -/
def Member.tokens (m : Member) : List Token := Glyph.inQuotes m.1 :: [':'] :: m.2.tokens

theorem memberTokens_eq_map (ms : List Member) : memberTokens ms = ms.map Member.tokens := by
  induction ms with
  | nil => rfl
  | cons m ms ih => rw [memberTokens, ih, List.map_cons, Member.tokens]

end Spelling

/-- Tokens with any blanks around them make this text. -/
inductive LaidOut : List Token → List Char → Prop where
  | nil {s : List Char} (hblank : ∀ c ∈ s, Reader.isBlank c = true) : LaidOut [] s
  | cons {token : Token} {rest : List Token} {blanks s : List Char} (hsome : token ≠ [])
    (hblank : ∀ c ∈ blanks, Reader.isBlank c = true) (h : LaidOut rest s) :
    LaidOut (token :: rest) (blanks ++ (token ++ s))

inductive Past : List Token → Prop where
  | nil : Past []
  | comma (rest : List Token) : Past ([','] :: rest)
  | bracket (rest : List Token) : Past ([']'] :: rest)
  | brace (rest : List Token) : Past (['}'] :: rest)

inductive Spelling.Begins : Spelling → Char → Prop where
  | null : Begins .null 'n'
  | true : Begins (.bool true) 't'
  | false : Begins (.bool false) 'f'
  | minus (f : Figure) : Begins (.number f) '-'
  | digit (f : Figure) {c : Char} (hdigit : Text.isDigit c = true) : Begins (.number f) c
  | string (gs : List Glyph) : Begins (.string gs) '"'
  | array (vs : List Spelling) : Begins (.array vs) '['
  | object (ms : List Spelling.Member) : Begins (.object ms) '{'

theorem Figure.exists_begins (f : Figure) :
    ∃ c cs, f.chars = c :: cs ∧ Spelling.Begins (.number f) c := by
  rw [Figure.chars]
  cases f.negative with
  | true => exact ⟨_, _, rfl, .minus f⟩
  | false =>
    obtain ⟨d, ds, hds, hd⟩ := f.whole.exists_cons
    refine ⟨d, ds ++ f.tail, ?_, .digit f hd⟩
    rw [if_neg (by decide), Figure.unsigned, hds, List.cons_append]

namespace Spelling

theorem exists_begins (v : Spelling) :
    ∃ c token rest, v.tokens = (c :: token) :: rest ∧ v.Begins c := by
  cases v with
  | null => exact ⟨_, _, _, rfl, .null⟩
  | bool b =>
    cases b with
    | true => exact ⟨_, _, _, rfl, .true⟩
    | false => exact ⟨_, _, _, rfl, .false⟩
  | number f =>
    obtain ⟨c, cs, hchars, hc⟩ := f.exists_begins
    exact ⟨c, cs, [], by rw [tokens, hchars], hc⟩
  | string gs => exact ⟨_, _, _, rfl, .string gs⟩
  | array vs => exact ⟨_, _, _, rfl, .array vs⟩
  | object ms => exact ⟨_, _, _, rfl, .object ms⟩

variable {v : Spelling} {c x : Char}

theorem Begins.isBlank (h : v.Begins c) : Reader.isBlank c = Bool.false := by
  cases h with
  | digit f hdigit => exact Reader.isBlank_of_isDigit hdigit
  | _ => rfl

theorem Begins.ne (h : v.Begins c) (hx : x ∈ [',', ']', '}']) : c ≠ x := by
  have hnone : ([',', ']', '}'].all fun x => !Text.isDigit x) = Bool.true := rfl
  have hx' : Text.isDigit x = Bool.false := by simpa using List.all_eq_true.1 hnone x hx
  cases h with
  | digit f hdigit => exact Reader.ne_of_isDigit hdigit hx'
  | _ =>
    simp only [List.mem_cons, List.not_mem_nil, or_false] at hx
    rcases hx with rfl | rfl | rfl <;> decide

end Spelling

namespace LaidOut

variable {rest : List Token} {token : Token} {s : List Char} {c : Char}

theorem here (h : LaidOut rest s) : LaidOut ((c :: token) :: rest) (c :: (token ++ s)) :=
  .cons (List.cons_ne_nil c token) (List.forall_mem_nil _) h

theorem length_le {tokens : List Token} (h : LaidOut tokens s) : tokens.length ≤ s.length := by
  induction h with
  | nil => exact Nat.zero_le _
  | cons hsome _ _ ih =>
    have hpos := List.length_pos_iff.2 hsome
    simp only [List.length_cons, List.length_append]
    omega

theorem evenly (blanks : List Char) {tokens : List Token}
    (hblank : ∀ c ∈ blanks, Reader.isBlank c = true) (hsome : ∀ token ∈ tokens, token ≠ [])
    (hs : s = tokens.flatMap (blanks ++ ·)) : LaidOut tokens s := by
  induction tokens generalizing s with
  | nil =>
    rw [hs]
    exact .nil (List.forall_mem_nil _)
  | cons token tokens ih =>
    obtain ⟨hfirst, hothers⟩ := List.forall_mem_cons.1 hsome
    rw [hs, List.flatMap_cons, List.append_assoc]
    exact .cons hfirst hblank (ih hothers rfl)

theorem exists_next? (h : LaidOut ((c :: token) :: rest) s) (hc : Reader.isBlank c = false) :
    ∃ t, Reader.next? s = .ok (some c, c :: (token ++ t)) ∧ LaidOut rest t := by
  cases h with
  | @cons _ _ blanks t _ hblank hrest =>
    refine ⟨t, ?_, hrest⟩
    have hskip : Reader.skipBlanks (blanks ++ (c :: token ++ t)) = .ok ((), c :: (token ++ t)) := by
      show Except.ok ((), (blanks ++ (c :: token ++ t)).dropWhile Reader.isBlank) = _
      rw [List.dropWhile_append_of_pos hblank, List.cons_append,
        List.dropWhile_cons_of_neg (by simp [hc])]
    rw [Reader.next?, Reader.bind_apply, hskip]
    rfl

theorem exists_next (h : LaidOut ((c :: token) :: rest) s) (hc : Reader.isBlank c = false) :
    ∃ t, Reader.next s = .ok (c, c :: (token ++ t)) ∧ LaidOut rest t := by
  obtain ⟨t, hnext, hrest⟩ := h.exists_next? hc
  exact ⟨t, by simp [Reader.next, hnext], hrest⟩

theorem head (h : LaidOut rest s) (hrest : Past rest) (hc : c ∈ s.head?) :
    Reader.isBlank c = true ∨ c ∈ [',', ']', '}'] := by
  cases h with
  | nil hblank => exact .inl (hblank c (List.mem_of_mem_head? hc))
  | @cons _ _ blanks t _ hblank _ =>
    cases blanks with
    | nil =>
      refine .inr ?_
      cases hrest
      all_goals
        obtain rfl : _ = c := by simpa using hc
        simp
    | cons b blanks =>
      obtain rfl : b = c := by simpa using hc
      exact .inl (hblank b List.mem_cons_self)

theorem isPast (h : LaidOut rest s) (hrest : Past rest) : IsPast s := by
  intro c hc
  rcases h.head hrest hc with hblank | hmem
  · simp only [Reader.isBlank, Bool.or_eq_true, beq_iff_eq] at hblank
    rcases hblank with ((rfl | rfl) | rfl) | rfl <;> decide
  · simp only [List.mem_cons, List.not_mem_nil, or_false] at hmem
    rcases hmem with rfl | rfl | rfl <;> decide

theorem exists_begins {v : Spelling} (h : LaidOut (v.tokens ++ rest) s) :
    ∃ c t, v.Begins c ∧ Reader.next? s = .ok (some c, t) ∧ LaidOut (v.tokens ++ rest) t := by
  obtain ⟨c, token, more, htokens, hc⟩ := v.exists_begins
  rw [htokens, List.cons_append] at h ⊢
  obtain ⟨t, hnext, ht⟩ := h.exists_next? hc.isBlank
  exact ⟨c, _, hc, hnext, ht.here⟩

end LaidOut

end Steward.Json
