import Steward.Proofs.Json.Syntax
/-!
Skipping a value. Whatever a value is and however it is spelled and laid out, skipping it succeeds
and stops right behind it.

Brackets are not followed by recursion but kept on a stack. So what is shown of a value is that
from any stack its tokens lead to the point where a value has just ended, on the same stack.
-/
namespace Steward.Json.Reader

variable {s rest : List Char}

theorem pastContents_plain {c : Char} (hquote : c ≠ '"') (hslash : c ≠ '\\')
    (h : ¬ c.toNat < 32) (s : List Char) : pastContents (c :: s) = pastContents s := by
  rw [pastContents, if_neg h]
  · exact hquote
  all_goals
    intros
    contradiction

theorem ne_u_of_shortEscape? {letter c : Char} (h : shortEscape? letter = some c) :
    letter ≠ 'u' := by
  rintro rfl
  cases h

theorem pastContents_glyph (g : Glyph) (s : List Char) :
    pastContents (g.chars ++ s) = pastContents s := by
  cases g with
  | plain c hquote hslash hprinted => exact pastContents_plain hquote hslash hprinted s
  | short letter c hletter =>
    have hu := ne_u_of_shortEscape? hletter
    rw [Glyph.chars, List.cons_append, List.singleton_append, pastContents]
    · rw [hletter]
      rfl
    all_goals
      intros
      contradiction
  | code a b c d n hcode =>
    simp only [Glyph.chars, List.cons_append, List.nil_append, pastContents, hcode]
    rfl

theorem pastContents_glyphs (gs : List Glyph) (s : List Char) :
    pastContents (gs.flatMap Glyph.chars ++ '"' :: s) = .ok s := by
  induction gs with
  | nil => rfl
  | cons g gs ih => rw [List.flatMap_cons, List.append_assoc, pastContents_glyph, ih]

@[simp] theorem peek?_nil : peek? [] = .ok (none, []) := rfl

theorem skipDigits_append {digits : List Char} (hdigits : ∀ c ∈ digits, Text.isDigit c = true)
    (hrest : Undigited rest) : skipDigits (digits ++ rest) = .ok ((), rest) := by
  show Except.ok ((), (digits ++ rest).dropWhile Text.isDigit) = _
  rw [List.dropWhile_append_of_pos hdigits]
  cases rest with
  | nil => rfl
  | cons c cs => rw [List.dropWhile_cons_of_neg (by simp [hrest c rfl])]

theorem skipSomeDigits_digits (ds : Digits) (hrest : Undigited rest) :
    skipSomeDigits (ds.chars ++ rest) = .ok ((), rest) := by
  obtain ⟨d, cs, hcs, hd⟩ := ds.exists_cons
  have hskip := skipDigits_append ds.digits hrest
  rw [hcs, List.cons_append] at hskip ⊢
  simp [skipSomeDigits, hd, hskip]

theorem skipExponent_past (hrest : IsPast rest) : skipExponent rest = .ok ((), rest) := by
  cases rest with
  | nil => rfl
  | cons c cs =>
    obtain ⟨-, -, he, hE⟩ := hrest c rfl
    simp [skipExponent, he, hE]

theorem skipExponent_exponent (e : Exponent) (hrest : IsPast rest) :
    skipExponent (e.chars ++ rest) = .ok ((), rest) := by
  obtain ⟨letter, hletter, sign, hsign, ds⟩ := e
  have hskip := skipSomeDigits_digits ds hrest.undigited
  obtain ⟨d, cs, hds, hd⟩ := ds.exists_cons
  rw [hds, List.cons_append] at hskip
  cases sign with
  | none =>
    have hplus : d ≠ '+' := ne_of_isDigit hd (by decide)
    have hminus : d ≠ '-' := ne_of_isDigit hd (by decide)
    rcases hletter with rfl | rfl
    all_goals simp [Exponent.chars, skipExponent, hds, hplus, hminus, hskip]
  | some c =>
    rcases hsign c rfl with rfl | rfl
    all_goals
      rcases hletter with rfl | rfl
      all_goals simp [Exponent.chars, skipExponent, hds, hskip]

theorem skipExponent_power (f : Figure) (hrest : IsPast rest) :
    skipExponent (f.power ++ rest) = .ok ((), rest) := by
  rw [Figure.power]
  cases f.exponent with
  | none => exact skipExponent_past hrest
  | some e => exact skipExponent_exponent e hrest

theorem head_power (f : Figure) (hrest : IsPast rest) :
    ∀ c ∈ (f.power ++ rest).head?, Text.isDigit c = false ∧ c ≠ '.' := by
  intro c hc
  rw [Figure.power] at hc
  cases hexponent : f.exponent with
  | none =>
    rw [hexponent] at hc
    exact ⟨(hrest c hc).1, (hrest c hc).2.1⟩
  | some e =>
    rw [hexponent] at hc
    obtain rfl : e.letter = c := Option.some.inj hc
    rcases e.isLetter with h | h
    all_goals
      rw [h]
      decide

theorem undigited_tail (f : Figure) (hrest : IsPast rest) : Undigited (f.tail ++ rest) := by
  intro c hc
  rw [Figure.tail] at hc
  cases hfraction : f.fraction with
  | none =>
    rw [hfraction] at hc
    exact (head_power f hrest c hc).1
  | some ds =>
    rw [hfraction] at hc
    obtain rfl : '.' = c := Option.some.inj hc
    rfl

theorem skip_tail (f : Figure) (hrest : IsPast rest) :
    (do match ← peek? with
        | some '.' =>
          advance
          skipSomeDigits
          skipExponent
        | _ => skipExponent : Reader Unit) (f.tail ++ rest) = .ok ((), rest) := by
  have hpower := skipExponent_power f hrest
  have hhead := head_power f hrest
  rw [Figure.tail, List.append_assoc]
  cases f.fraction with
  | none =>
    rw [Option.map_none, Option.getD_none, List.nil_append]
    rcases hpast : f.power ++ rest with _ | ⟨c, cs⟩
    · rw [hpast] at hpower
      simp [hpower]
    · rw [hpast] at hpower hhead
      simp [hpower, (hhead c rfl).2]
  | some ds =>
    have hdigits := skipSomeDigits_digits ds fun c hc => (hhead c hc).1
    simp [hdigits, hpower]

theorem skipNumber_unsigned (f : Figure) (hrest : IsPast rest) :
    skipNumber (f.unsigned ++ rest) = .ok ((), rest) := by
  have htail := skip_tail f hrest
  have hundigited := undigited_tail f hrest
  have hwhole := skipSomeDigits_digits f.whole hundigited
  have hplain := f.plain
  obtain ⟨d, ds, hds, -⟩ := f.whole.exists_cons
  rw [hds, List.cons_append] at hwhole
  rw [hds] at hplain
  rw [bind_apply] at htail
  rw [Figure.unsigned, hds, List.append_assoc, List.cons_append, skipNumber, bind_apply,
    peek?_cons, ok_bind]
  by_cases hzero : d = '0'
  · obtain rfl : ds = [] := by simpa [hzero] using hplain
    subst hzero
    rcases hpast : f.tail ++ rest with _ | ⟨c, cs⟩
    · rw [hpast] at htail
      simpa [hpast] using htail
    · rw [hpast] at htail hundigited
      simp only [List.nil_append, advance_cons, ok_bind, bind_apply, peek?_cons,
        hundigited c rfl]
      exact htail
  · simp [hzero, hwhole]
    exact htail

def resume (rounds : Nat) (opened : List Char) : Reader Unit := do
  let opened ← closeOpen opened true
  if opened.isEmpty then return () else skipOpen rounds opened

/-- Inside any brackets the skipper gets past this value, with rounds enough for what follows. -/
def Passes (v : Spelling) : Prop :=
  ∀ (rounds : Nat) (opened : List Char) (rest : List Token) (s : List Char),
    (v.tokens ++ rest).length ≤ rounds → Past rest → LaidOut (v.tokens ++ rest) s →
      ∃ left t, rest.length ≤ left ∧ LaidOut rest t ∧
        skipOpen rounds opened s = resume left opened t

theorem passes_of_token {v : Spelling} {c : Char} {token : Token}
    (htokens : v.tokens = [c :: token]) (hblank : isBlank c = false)
    (hskip : ∀ {rounds opened s t}, next s = .ok (c, c :: (token ++ t)) → IsPast t →
      skipOpen (rounds + 1) opened s = resume rounds opened t) : Passes v := by
  intro rounds opened rest s hrounds hrest hs
  rw [htokens, List.singleton_append] at hrounds hs
  obtain ⟨left, rfl⟩ := Nat.exists_eq_add_of_le' (Nat.le_of_add_left_le hrounds)
  obtain ⟨t, hnext, ht⟩ := hs.exists_next hblank
  exact ⟨left, t, Nat.le_of_succ_le_succ hrounds, ht, hskip hnext (ht.isPast hrest)⟩

theorem passes_null : Passes .null :=
  passes_of_token rfl rfl fun hnext _ => by simp [skipOpen, hnext, spell, resume]

theorem passes_bool (b : Bool) : Passes (.bool b) := by
  cases b with
  | true => exact passes_of_token rfl rfl fun hnext _ => by simp [skipOpen, hnext, spell, resume]
  | false => exact passes_of_token rfl rfl fun hnext _ => by simp [skipOpen, hnext, spell, resume]

theorem passes_string (gs : List Glyph) : Passes (.string gs) :=
  passes_of_token rfl rfl fun {_ _ _ t} hnext _ => by
    have hpast := pastContents_glyphs gs t
    rw [List.append_assoc, List.singleton_append] at hnext
    simp [skipOpen, hnext, resume, hpast]

theorem ne_of_isDigit_of_mem {d x : Char} (hd : Text.isDigit d = true)
    (hx : x ∈ ['[', '{', 'n', 't', 'f', '"', '-']) : d ≠ x := by
  have hnone : (['[', '{', 'n', 't', 'f', '"', '-'].all fun x => !Text.isDigit x) = true := rfl
  exact ne_of_isDigit hd (by simpa using List.all_eq_true.1 hnone x hx)

theorem passes_number (f : Figure) : Passes (.number f) := by
  cases hsign : f.negative with
  | true =>
    have hchars : f.chars = '-' :: f.unsigned := if_pos hsign
    have htokens : (Spelling.number f).tokens = ['-' :: f.unsigned] := by
      rw [Spelling.tokens, hchars]
    refine passes_of_token htokens rfl fun hnext hpast => ?_
    have hskip := skipNumber_unsigned f hpast
    simp [skipOpen, hnext, resume, hskip]
  | false =>
    have hchars : f.chars = f.unsigned := if_neg (by simp [hsign])
    obtain ⟨d, ds, hds, hd⟩ := f.whole.exists_cons
    have hplain : ∀ x ∈ ['[', '{', 'n', 't', 'f', '"', '-'], d ≠ x := fun x =>
      ne_of_isDigit_of_mem hd
    simp only [List.forall_mem_cons] at hplain
    have hunsigned : f.unsigned = d :: (ds ++ f.tail) := by
      rw [Figure.unsigned, hds, List.cons_append]
    have htokens : (Spelling.number f).tokens = [d :: (ds ++ f.tail)] := by
      rw [Spelling.tokens, hchars, hunsigned]
    refine passes_of_token htokens (isBlank_of_isDigit hd) fun hnext hpast => ?_
    have hskip := skipNumber_unsigned f hpast
    rw [hunsigned, List.cons_append, List.append_assoc] at hskip
    simp [skipOpen, hnext, resume, hskip, hplain, hd]

inductive Part : Char → List Token → Spelling → Prop where
  | item (v : Spelling) : Part '[' v.tokens v
  | member (m : Spelling.Member) : Part '{' m.tokens m.2

theorem Part.length_le {bracket : Char} {part : List Token} {v : Spelling}
    (h : Part bracket part v) : v.tokens.length ≤ part.length := by
  cases h with
  | item => exact Nat.le_refl _
  | member =>
    rw [Spelling.Member.tokens, List.length_cons, List.length_cons]
    omega

inductive Closes : Char → Char → Prop where
  | array : Closes '[' ']'
  | object : Closes '{' '}'

section Brackets

variable {bracket close : Char} {opened : List Char} {part : List Token} {v : Spelling}
  {after : List Token}

theorem exists_skipKey (gs : List Glyph)
    (h : LaidOut (Glyph.inQuotes gs :: [':'] :: after) s) :
    ∃ t, skipKey s = .ok ((), t) ∧ LaidOut after t := by
  obtain ⟨t, hquote, ht⟩ := LaidOut.exists_next? h rfl
  obtain ⟨u, hcolon, hu⟩ := LaidOut.exists_next? ht rfl
  refine ⟨u, ?_, hu⟩
  have hpast := pastContents_glyphs gs t
  rw [List.append_assoc, List.singleton_append] at hquote
  simp [skipKey, hquote, hpast, hcolon]

theorem exists_closeOpen_comma (hpart : Part bracket part v)
    (h : LaidOut ([','] :: (part ++ after)) s) :
    ∃ t, closeOpen (bracket :: opened) true s = .ok (bracket :: opened, t) ∧
      LaidOut (v.tokens ++ after) t := by
  obtain ⟨t, hcomma, ht⟩ := h.exists_next? rfl
  cases hpart with
  | item v => exact ⟨t, by simp [closeOpen, hcomma], ht⟩
  | member m =>
    obtain ⟨u, hkey, hu⟩ := exists_skipKey m.1 ht
    exact ⟨u, by simp [closeOpen, hcomma, hkey], hu⟩

theorem exists_closeOpen_first (hpart : Part bracket part v) (h : LaidOut (part ++ after) s) :
    ∃ t, closeOpen (bracket :: opened) false s = .ok (bracket :: opened, t) ∧
      LaidOut (v.tokens ++ after) t := by
  cases hpart with
  | item v =>
    obtain ⟨c, token, tokens, htokens, hc⟩ := v.exists_begins
    have hcloses : c ≠ ']' := hc.ne (by decide)
    rw [htokens, List.cons_append] at h ⊢
    obtain ⟨t, hhead, ht⟩ := h.exists_next? hc.isBlank
    exact ⟨_, by simp [closeOpen, hhead, hcloses], ht.here⟩
  | member m =>
    obtain ⟨t, hquote, ht⟩ := LaidOut.exists_next? h rfl
    obtain ⟨u, hkey, hu⟩ := exists_skipKey m.1 ht.here
    rw [List.append_assoc, List.singleton_append] at hkey
    exact ⟨u, by simp [closeOpen, hquote, hkey], hu⟩

theorem exists_closeOpen_close (hclose : Closes bracket close) (ready : Bool)
    (h : LaidOut ([close] :: after) s) :
    ∃ t, closeOpen (bracket :: opened) ready s = closeOpen opened true t ∧ LaidOut after t := by
  cases hclose with
  | array =>
    obtain ⟨t, hnext, ht⟩ := h.exists_next? rfl
    exact ⟨t, by simp [closeOpen, hnext], ht⟩
  | object =>
    obtain ⟨t, hnext, ht⟩ := h.exists_next? rfl
    exact ⟨t, by simp [closeOpen, hnext], ht⟩

end Brackets

section Depth

variable {bracket close : Char} {opened : List Char} {after : List Token}
  {parts : List (List Token × Spelling)}

theorem past_parts (hclose : Closes bracket close) (parts : List (List Token)) :
    Past (parts.flatMap ([','] :: ·) ++ [close] :: after) := by
  cases parts with
  | cons part parts => exact .comma _
  | nil =>
    cases hclose with
    | array => exact .bracket _
    | object => exact .brace _

theorem exists_resume_parts (hclose : Closes bracket close)
    (hparts : ∀ part ∈ parts, Part bracket part.1 part.2 ∧ Passes part.2) {rounds : Nat}
    (hrounds : ((parts.map (·.1)).flatMap ([','] :: ·) ++ [close] :: after).length ≤ rounds)
    (h : LaidOut ((parts.map (·.1)).flatMap ([','] :: ·) ++ [close] :: after) s) :
    ∃ left t, after.length ≤ left ∧ LaidOut after t ∧
      resume rounds (bracket :: opened) s = resume left opened t := by
  induction parts generalizing rounds s with
  | nil =>
    obtain ⟨t, hcloses, ht⟩ := exists_closeOpen_close hclose true h
    refine ⟨rounds, t, Nat.le_of_succ_le hrounds, ht, ?_⟩
    rw [resume, bind_apply, hcloses]
    rfl
  | cons part parts ih =>
    obtain ⟨⟨hpart, hpasses⟩, hparts⟩ := List.forall_mem_cons.1 hparts
    rw [List.map_cons, List.flatMap_cons, List.append_assoc] at hrounds h
    obtain ⟨t, hcomma, ht⟩ := exists_closeOpen_comma hpart h
    have hvalue := hpart.length_le
    have hstart : resume rounds (bracket :: opened) s = skipOpen rounds (bracket :: opened) t := by
      rw [resume, bind_apply, hcomma]
      rfl
    simp only [List.length_append, List.length_cons] at hrounds
    obtain ⟨between, u, hbetween, hu, hskip⟩ := hpasses rounds (bracket :: opened) _ t
      (by simp only [List.length_append, List.length_cons]; omega) (past_parts hclose _) ht
    obtain ⟨left, w, hleft, hw, hresume⟩ := ih hparts hbetween hu
    exact ⟨left, w, hleft, hw, by rw [hstart, hskip, hresume]⟩

theorem passes_brackets {v : Spelling} (hclose : Closes bracket close)
    (hparts : ∀ part ∈ parts, Part bracket part.1 part.2 ∧ Passes part.2)
    (htokens : v.tokens = [bracket] :: (parted (parts.map (·.1)) ++ [[close]])) : Passes v := by
  intro rounds opened after s hrounds _ hs
  rw [htokens, List.cons_append, List.append_assoc, List.singleton_append] at hrounds hs
  obtain ⟨rounds, rfl⟩ := Nat.exists_eq_add_of_le' (Nat.le_of_add_left_le hrounds)
  have hrounds := Nat.le_of_succ_le_succ hrounds
  have hblank : isBlank bracket = false := by cases hclose <;> rfl
  obtain ⟨t, hopen, ht⟩ := hs.exists_next hblank
  have hstart : skipOpen (rounds + 1) opened s = (closeOpen (bracket :: opened) false >>= fun now =>
      if now.isEmpty then return () else skipOpen rounds now) t := by
    cases hclose <;> simp [skipOpen, hopen]
  cases parts with
  | nil =>
    obtain ⟨u, hcloses, hu⟩ := exists_closeOpen_close hclose false ht
    refine ⟨rounds, u, Nat.le_of_succ_le hrounds, hu, ?_⟩
    rw [hstart, bind_apply, hcloses]
    rfl
  | cons part parts =>
    obtain ⟨⟨hpart, hpasses⟩, hparts⟩ := List.forall_mem_cons.1 hparts
    rw [List.map_cons, parted, List.append_assoc] at hrounds ht
    obtain ⟨u, hfirst, hu⟩ := exists_closeOpen_first hpart ht
    have hvalue := hpart.length_le
    simp only [List.length_append, List.length_cons] at hrounds
    obtain ⟨between, w, hbetween, hw, hskip⟩ := hpasses rounds (bracket :: opened) _ u
      (by simp only [List.length_append, List.length_cons]; omega) (past_parts hclose _) hu
    obtain ⟨left, x, hleft, hx, hresume⟩ := exists_resume_parts hclose hparts hbetween hw
    refine ⟨left, x, hleft, hx, ?_⟩
    rw [hstart, bind_apply, hfirst, ← hresume, ← hskip]
    rfl

theorem passes_array {vs : List Spelling} (h : ∀ v ∈ vs, Passes v) : Passes (.array vs) := by
  have htokens : (Spelling.array vs).tokens =
      ['['] :: (parted ((vs.map fun v => (v.tokens, v)).map (·.1)) ++ [[']']]) := by
    rw [Spelling.tokens, Spelling.itemTokens_eq_map, List.map_map]
    rfl
  refine passes_brackets .array (fun part hpart => ?_) htokens
  obtain ⟨v, hv, rfl⟩ := List.mem_map.1 hpart
  exact ⟨.item v, h v hv⟩

theorem passes_object {ms : List Spelling.Member} (h : ∀ m ∈ ms, Passes m.2) :
    Passes (.object ms) := by
  have htokens : (Spelling.object ms).tokens =
      ['{'] :: (parted ((ms.map fun m => (m.tokens, m.2)).map (·.1)) ++ [['}']]) := by
    rw [Spelling.tokens, Spelling.memberTokens_eq_map, List.map_map]
    rfl
  refine passes_brackets .object (fun part hpart => ?_) htokens
  obtain ⟨m, hm, rfl⟩ := List.mem_map.1 hpart
  exact ⟨.member m, h m hm⟩

end Depth

mutual

theorem passes : (v : Spelling) → Passes v
  | .null => passes_null
  | .bool b => passes_bool b
  | .number f => passes_number f
  | .string gs => passes_string gs
  | .array vs => passes_array (passes_items vs)
  | .object ms => passes_object (passes_members ms)

theorem passes_items : (vs : List Spelling) → ∀ v ∈ vs, Passes v
  | [] => List.forall_mem_nil _
  | v :: vs => List.forall_mem_cons.2 ⟨passes v, passes_items vs⟩

theorem passes_members : (ms : List Spelling.Member) → ∀ m ∈ ms, Passes m.2
  | [] => List.forall_mem_nil _
  | (_, v) :: ms => List.forall_mem_cons.2 ⟨passes v, passes_members ms⟩

end

theorem exists_skip (v : Spelling) {after : List Token} (hafter : Past after)
    (h : LaidOut (v.tokens ++ after) s) : ∃ t, skip s = .ok ((), t) ∧ LaidOut after t := by
  obtain ⟨left, t, -, ht, hskip⟩ :=
    passes v (s.length + 1) [] after s (Nat.le_succ_of_le h.length_le) hafter h
  refine ⟨t, ?_, ht⟩
  rw [skip, bind_apply, get_apply, ok_bind, hskip]
  rfl

end Steward.Json.Reader
