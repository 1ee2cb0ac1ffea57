import Steward.Proofs.Text.Scan
import Steward.Toml.Writer
/-!
Strings of TOML documents are read back as they were written, whichever of the four forms they are
written in.
-/
namespace Steward.Toml

open Text (Scan)
open Text.Scan

variable {c q : Char} {s t rest : List Char} {n : Nat}

def isEscaped (c : Char) : Bool := c == '"' || c == '\\' || c == '\t' || !isPlain c

theorem isEscaped_eq_false_iff : isEscaped c = false ↔
    c ≠ '"' ∧ c ≠ '\\' ∧ c ≠ '\t' ∧ isPlain c = true := by
  simp [isEscaped, and_assoc]

theorem ne_lineEnd_of_plain (h : isPlain c = true) : c ≠ '\n' ∧ c ≠ '\r' := by
  constructor
  all_goals
    rintro rfl
    exact absurd h (by decide)

theorem toNat_of_not_plain (h : isPlain c = false) : c.toNat < 128 := by
  unfold isPlain at h
  simp at h
  omega

theorem coded?_hex (h : n < 128) : coded? (Text.hex 'A' 4 n) = some (Char.ofNat n) := by
  revert n
  decide

theorem escaped_spec (h : isEscaped c = true) :
    (∃ letter, escaped c = ['\\', letter] ∧ shortEscape? letter = some c) ∨
      escaped c = '\\' :: 'u' :: Text.hex 'A' 4 c.toNat ∧ c.toNat < 128 := by
  unfold escaped
  split
  · exact .inl ⟨_, rfl, rfl⟩
  · exact .inl ⟨_, rfl, rfl⟩
  · exact .inl ⟨_, rfl, rfl⟩
  · exact .inl ⟨_, rfl, rfl⟩
  · exact .inl ⟨_, rfl, rfl⟩
  · rename_i hquote hslash _ _ htab
    split
    · rename_i hbackspace
      obtain rfl : c = Char.ofNat 8 := by rw [← hbackspace, Char.ofNat_toNat]
      exact .inl ⟨_, rfl, rfl⟩
    · split
      · rename_i hfeed
        obtain rfl : c = Char.ofNat 12 := by rw [← hfeed, Char.ofNat_toNat]
        exact .inl ⟨_, rfl, rfl⟩
      · right
        refine ⟨rfl, toNat_of_not_plain ?_⟩
        rw [← Bool.not_eq_true]
        intro hplain
        rw [isEscaped_eq_false_iff.2 ⟨hquote, hslash, htab, hplain⟩] at h
        cases h

theorem basic_letter (h : shortEscape? q = some c) :
    basic ('\\' :: q :: s) = (basic s).bind fun r => some (c :: r.1, r.2) := by
  rw [basic]
  · simp [h]
  all_goals
    intros
    subst_vars
    cases h

theorem basic_code (h : c.toNat < 128) : basic ('\\' :: 'u' :: Text.hex 'A' 4 c.toNat ++ s) =
    (basic s).bind fun r => some (c :: r.1, r.2) := by
  have hcode := coded?_hex h
  obtain ⟨w, x, y, z, hhex⟩ : ∃ w x y z, Text.hex 'A' 4 c.toNat = [w, x, y, z] := ⟨_, _, _, _, rfl⟩
  rw [Char.ofNat_toNat, hhex] at hcode
  simp [hhex, basic, hcode]

theorem basic_escaped (h : isEscaped c = true) :
    basic (escaped c ++ s) = (basic s).bind fun r => some (c :: r.1, r.2) := by
  rcases escaped_spec h with ⟨letter, he, hletter⟩ | ⟨he, hcode⟩
  · rw [he]
    exact basic_letter hletter
  · rw [he]
    exact basic_code hcode

theorem basic_plain (h : isEscaped c = false) :
    basic (c :: s) = (basic s).bind fun r => some (c :: r.1, r.2) := by
  obtain ⟨hquote, hslash, -, hplain⟩ := isEscaped_eq_false_iff.1 h
  rw [basic]
  · simp [hplain, hslash]
  · exact hquote
  all_goals
    intros
    contradiction

section Body

variable {allowed quotes : Nat} {lines : Bool}

theorem basicBody_quote (h : quotes < allowed) : basicBody allowed lines quotes ('"' :: s) =
    '"' :: basicBody allowed lines (quotes + 1) s := by
  rw [basicBody, if_pos rfl, if_pos h]

theorem basicBody_newline : basicBody allowed true quotes ('\n' :: s) =
    '\n' :: basicBody allowed true 0 s := by
  simp [basicBody]

theorem basicBody_escaped (h : isEscaped c = true) (hquote : c = '"' → allowed ≤ quotes)
    (hline : c = '\n' → lines = false) :
    basicBody allowed lines quotes (c :: s) = escaped c ++ basicBody allowed lines 0 s := by
  rw [basicBody]
  split
  · rename_i hc
    exact if_neg (Nat.not_lt.2 (hquote hc))
  · rename_i hc
    rw [if_neg (by simpa using hline), if_pos (by simpa [isEscaped, hc, or_assoc] using h)]

theorem basicBody_plain (h : isEscaped c = false) :
    basicBody allowed lines quotes (c :: s) = c :: basicBody allowed lines 0 s := by
  obtain ⟨hquote, hslash, htab, hplain⟩ := isEscaped_eq_false_iff.1 h
  simp [basicBody, hquote, hslash, htab, hplain, (ne_lineEnd_of_plain hplain).1]

theorem escaped_eq_cons (c : Char) : ∃ code, escaped c = '\\' :: code := by
  unfold escaped
  split
  all_goals first
    | exact ⟨_, rfl⟩
    | split
      · exact ⟨_, rfl⟩
      · split <;> exact ⟨_, rfl⟩

/-- How the text of contents begins. Only an unescaped quote begins with a quote, and only a line
end with one. -/
theorem basicBody_cons (allowed : Nat) (lines : Bool) (quotes : Nat) (c : Char) (s : List Char) :
    ∃ d text, basicBody allowed lines quotes (c :: s) = d :: text ∧
      (d = '"' → c = '"' ∧ quotes < allowed ∧ text = basicBody allowed lines (quotes + 1) s) ∧
      (isPlain d = true ∨ c = '\n') := by
  obtain ⟨code, hcode⟩ := escaped_eq_cons c
  rw [basicBody, hcode]
  split
  · rename_i hquote
    split
    · rename_i hfew
      exact ⟨_, _, rfl, fun _ => ⟨hquote, hfew, rfl⟩, .inl (hquote ▸ rfl)⟩
    · exact ⟨_, _, rfl, by simp, .inl rfl⟩
  · rename_i hquote
    split
    · rename_i hline
      exact ⟨_, _, rfl, fun h => absurd h hquote, .inr (by simp_all)⟩
    · split
      · exact ⟨_, _, rfl, by simp, .inl rfl⟩
      · rename_i hplain
        exact ⟨_, _, rfl, fun h => absurd h hquote, .inl (by simp_all)⟩

theorem basicBody_eq_nil (h : basicBody allowed lines quotes s = []) : s = [] := by
  cases s with
  | nil => rfl
  | cons c s =>
    obtain ⟨d, text, heq, -, -⟩ := basicBody_cons allowed lines quotes c s
    rw [heq] at h
    cases h

theorem basicBody_eq_quote (h : basicBody allowed lines quotes s = '"' :: t) :
    ∃ s', s = '"' :: s' ∧ quotes < allowed ∧ basicBody allowed lines (quotes + 1) s' = t := by
  cases s with
  | nil => cases h
  | cons c s =>
    obtain ⟨d, text, heq, hquote, -⟩ := basicBody_cons allowed lines quotes c s
    rw [heq] at h
    cases h
    obtain ⟨rfl, hfew, rfl⟩ := hquote rfl
    exact ⟨s, rfl, hfew, rfl⟩

end Body

theorem basic_basicBody (s rest : List Char) :
    basic (basicBody 0 false 0 s ++ '"' :: rest) = some (s, rest) := by
  induction s with
  | nil => rfl
  | cons c s ih =>
    cases h : isEscaped c with
    | true =>
      rw [basicBody_escaped h (fun _ => Nat.le_refl 0) (fun _ => rfl), List.append_assoc,
        basic_escaped h, ih]
      rfl
    | false =>
      rw [basicBody_plain h, List.cons_append, basic_plain h, ih]
      rfl

theorem literal_append (hplain : ∀ c ∈ s, isPlain c = true) (hquote : '\'' ∉ s) (rest : List Char) :
    literal (s ++ '\'' :: rest) = some (s, rest) := by
  induction s with
  | nil => rfl
  | cons c s ih =>
    rw [List.mem_cons, not_or] at hquote
    rw [List.cons_append, literal, ih (fun d hd => hplain d (List.mem_cons_of_mem c hd)) hquote.2]
    · simp [hplain c List.mem_cons_self]
    · rintro rfl
      exact hquote.1 rfl

theorem lineString_inForm {f : Form} (hf : f.isLines = false)
    (hliteral : f = .literal → (∀ c ∈ s, isPlain c = true) ∧ '\'' ∉ s) (rest : List Char) :
    lineString (inForm f s ++ rest) = some (String.ofList s, rest) := by
  cases f with
  | basic =>
    have := basic_basicBody s rest
    simp [lineString, inForm, Form.delimiter, Form.isLines, Form.hasEscapes, this]
  | literal =>
    have := literal_append (hliteral rfl).1 (hliteral rfl).2 rest
    simp [lineString, inForm, Form.delimiter, Form.isLines, Form.hasEscapes, this]
  | basicLines => cases hf
  | literalLines => cases hf

def Ends (quote : Char) (s rest : List Char) : Prop :=
  s = quote :: quote :: quote :: rest ∧ rest.head? ≠ some quote

theorem closing?_ends (h : Ends q s rest) : closing? q s = some ([], rest) := by
  obtain ⟨rfl, hrest⟩ := h
  rcases rest with _ | ⟨c, rest⟩
  · simp [closing?]
  · have hc : c ≠ q := by simpa using hrest
    simp [closing?, hc]

/-- A quote before at most one more of the contents: either it does not end the string, or all the
contents are quotes. -/
theorem closing?_quote (h : Ends q s rest) (ht : ∀ more, t ≠ q :: q :: more) :
    closing? q (q :: (t ++ s)) = none ∨ closing? q (q :: (t ++ s)) = some (q :: t, rest) ∧
      (t = [] ∨ t = [q]) := by
  obtain ⟨rfl, hrest⟩ := h
  match t with
  | [] =>
    right
    rcases rest with _ | ⟨c, rest⟩
    · simp [closing?]
    · have hc : c ≠ q := by simpa using hrest
      simp [closing?, hc]
  | [a] =>
    by_cases ha : a = q
    · right
      simp [closing?, ha]
    · left
      simp [closing?, ha]
  | a :: b :: more =>
    left
    have hab : a = q → b ≠ q := by
      rintro rfl rfl
      exact ht more rfl
    simpa [closing?] using hab

theorem closing?_other (h : c ≠ q) : closing? q (c :: s) = none := by
  unfold closing?
  split
  · rename_i hs
    rw [if_neg]
    rintro ⟨rfl, -⟩
    exact h (List.cons.inj hs).1
  · rfl

theorem letter_spec (h : shortEscape? q = some c) :
    isBlank q = false ∧ ∀ s, lineEnd? (q :: s) = none := by
  unfold shortEscape? at h
  split at h
  case h_8 => cases h
  all_goals exact ⟨rfl, fun _ => rfl⟩

theorem basicLines_letter (h : shortEscape? q = some c) :
    basicLines false ('\\' :: q :: s) =
      (basicLines false s).bind fun r => some (c :: r.1, r.2) := by
  obtain ⟨hblank, hline⟩ := letter_spec h
  rw [basicLines]
  · simp [h, hblank, hline]
  all_goals
    intros
    subst_vars
    cases h

theorem basicLines_code (h : c.toNat < 128) :
    basicLines false ('\\' :: 'u' :: Text.hex 'A' 4 c.toNat ++ s) =
      (basicLines false s).bind fun r => some (c :: r.1, r.2) := by
  have hcode := coded?_hex h
  obtain ⟨w, x, y, z, hhex⟩ : ∃ w x y z, Text.hex 'A' 4 c.toNat = [w, x, y, z] := ⟨_, _, _, _, rfl⟩
  rw [Char.ofNat_toNat, hhex] at hcode
  simp [hhex, basicLines, hcode]

theorem basicLines_escaped (h : isEscaped c = true) :
    basicLines false (escaped c ++ s) =
      (basicLines false s).bind fun r => some (c :: r.1, r.2) := by
  rcases escaped_spec h with ⟨letter, he, hletter⟩ | ⟨he, hcode⟩
  · rw [he]
    exact basicLines_letter hletter
  · rw [he]
    exact basicLines_code hcode

theorem basicLines_plain (h : isEscaped c = false) :
    basicLines false (c :: s) = (basicLines false s).bind fun r => some (c :: r.1, r.2) := by
  obtain ⟨hquote, hslash, htab, hplain⟩ := isEscaped_eq_false_iff.1 h
  have hline := ne_lineEnd_of_plain hplain
  rw [basicLines]
  · simp [hplain, hslash, closing?_other hquote]
  all_goals
    intros
    subst_vars
    simp at hline hslash

theorem basicLines_newline :
    basicLines false ('\n' :: s) = (basicLines false s).bind fun r => some ('\n' :: r.1, r.2) :=
  rfl

theorem basicLines_quote_of_none (h : closing? '"' ('"' :: s) = none) :
    basicLines false ('"' :: s) = (basicLines false s).bind fun r => some ('"' :: r.1, r.2) := by
  have hplain : isPlain '"' = true := rfl
  simp [basicLines, h, hplain]

theorem basicLines_quote_of_some {found : List Char × List Char}
    (h : closing? '"' ('"' :: s) = some found) : basicLines false ('"' :: s) = some found := by
  simp [basicLines, h]

theorem basicBody_ne_quotes (s more : List Char) {quotes : Nat} (h : 0 < quotes) :
    basicBody 2 true quotes s ≠ '"' :: '"' :: more := by
  intro heq
  obtain ⟨s', -, hfirst, hmore⟩ := basicBody_eq_quote heq
  obtain ⟨-, -, hsecond, -⟩ := basicBody_eq_quote hmore
  omega

/-- A quote that stays as it is stands for itself, also where the closing quotes follow soon. -/
theorem basicLines_quote (h : Ends '"' t rest) {quotes : Nat}
    (hread : basicLines false (basicBody 2 true (quotes + 1) s ++ t) = some (s, rest)) :
    basicLines false ('"' :: (basicBody 2 true (quotes + 1) s ++ t)) = some ('"' :: s, rest) := by
  have hfew := fun more => basicBody_ne_quotes s more (Nat.succ_pos quotes)
  rcases closing?_quote h hfew with hnone | ⟨hsome, hall⟩
  · rw [basicLines_quote_of_none hnone, hread]
    rfl
  · rw [basicLines_quote_of_some hsome]
    rcases hall with hnil | hone
    · rw [hnil, basicBody_eq_nil hnil]
    · obtain ⟨s', rfl, -, hs'⟩ := basicBody_eq_quote hone
      rw [hone, basicBody_eq_nil hs']

theorem basicLines_basicBody (h : Ends '"' t rest) (s : List Char) (quotes : Nat) :
    basicLines false (basicBody 2 true quotes s ++ t) = some (s, rest) := by
  induction s generalizing quotes with
  | nil => exact h.1 ▸ basicLines_quote_of_some (h.1 ▸ closing?_ends h)
  | cons c s ih =>
    by_cases hline : c = '\n'
    · rw [hline, basicBody_newline, List.cons_append, basicLines_newline, ih]
      rfl
    · cases hc : isEscaped c with
      | false =>
        rw [basicBody_plain hc, List.cons_append, basicLines_plain hc, ih]
        rfl
      | true =>
        by_cases hquote : c = '"' ∧ quotes < 2
        · obtain ⟨rfl, hquotes⟩ := hquote
          rw [basicBody_quote hquotes, List.cons_append, basicLines_quote h (ih (quotes + 1))]
        · have hmany : c = '"' → 2 ≤ quotes := fun heq =>
            Nat.le_of_not_lt fun hfew => hquote ⟨heq, hfew⟩
          rw [basicBody_escaped hc hmany (fun heq => absurd heq hline), List.append_assoc,
            basicLines_escaped hc, ih]
          rfl

theorem literalLines_plain (hplain : isPlain c = true) (hnone : closing? '\'' (c :: s) = none) :
    literalLines (c :: s) = (literalLines s).bind fun r => some (c :: r.1, r.2) := by
  have hline := ne_lineEnd_of_plain hplain
  rw [literalLines]
  · simp [hplain, hnone]
  all_goals
    intros
    subst_vars
    simp at hline

theorem literalLines_quote_of_some {found : List Char × List Char}
    (h : closing? '\'' ('\'' :: s) = some found) : literalLines ('\'' :: s) = some found := by
  simp [literalLines, h]

theorem literalLines_append (h : Ends '\'' t rest) (hcontrol : ∀ c ∈ s, isControl c = false)
    (hquotes : ¬ List.replicate 3 '\'' <:+: s) : literalLines (s ++ t) = some (s, rest) := by
  induction s with
  | nil => exact h.1 ▸ literalLines_quote_of_some (h.1 ▸ closing?_ends h)
  | cons c s ih =>
    have ih := ih (fun d hd => hcontrol d (List.mem_cons_of_mem c hd))
      (fun hin => hquotes (List.infix_cons hin))
    by_cases hline : c = '\n'
    · rw [hline, List.cons_append, literalLines, ih]
      rfl
    · have hplain : isPlain c = true := by
        simpa [isControl, hline] using hcontrol c List.mem_cons_self
      by_cases hquote : c = '\''
      · subst hquote
        have hfew : ∀ more, s ≠ '\'' :: '\'' :: more := by
          rintro more rfl
          exact hquotes (List.prefix_append _ more).isInfix
        rcases closing?_quote h hfew with hnone | ⟨hsome, -⟩
        · rw [List.cons_append, literalLines_plain hplain hnone, ih]
          rfl
        · exact literalLines_quote_of_some hsome
      · rw [List.cons_append, literalLines_plain hplain (closing?_other hquote), ih]
        rfl

def runStep (c : Char) (r : Nat × Nat) (d : Char) : Nat × Nat :=
  let run := if d = c then r.1 + 1 else 0
  (run, max run r.2)

theorem longestRun_eq (c : Char) (s : List Char) :
    longestRun c s = (s.foldl (runStep c) (0, 0)).2 := rfl

theorem le_foldl_runStep (c : Char) (s : List Char) (r : Nat × Nat) :
    r.2 ≤ (s.foldl (runStep c) r).2 := by
  induction s generalizing r with
  | nil => exact Nat.le_refl _
  | cons d s ih => exact Nat.le_trans (Nat.le_max_right _ _) (ih (runStep c r d))

theorem foldl_runStep_replicate (c : Char) (n : Nat) (r : Nat × Nat) (h : r.1 ≤ r.2) :
    r.1 + n ≤ ((List.replicate n c).foldl (runStep c) r).2 := by
  induction n generalizing r with
  | zero => exact h
  | succ n ih =>
    have := ih (runStep c r c) (Nat.le_max_left _ _)
    rw [List.replicate_succ, List.foldl_cons]
    simp only [runStep, ↓reduceIte] at this ⊢
    omega

theorem foldl_runStep_le (c : Char) (s : List Char) (r : Nat × Nat) (h : r.1 ≤ r.2) :
    (s.foldl (runStep c) r).1 ≤ (s.foldl (runStep c) r).2 := by
  induction s generalizing r with
  | nil => exact h
  | cons d s ih => exact ih _ (Nat.le_max_left _ _)

theorem le_longestRun (h : List.replicate n c <:+: s) : n ≤ longestRun c s := by
  obtain ⟨before, after, rfl⟩ := h
  rw [longestRun_eq, List.foldl_append, List.foldl_append]
  refine Nat.le_trans ?_ (le_foldl_runStep c after _)
  have := foldl_runStep_replicate c n _ (foldl_runStep_le c before (0, 0) (Nat.le_refl 0))
  omega

theorem notMem_of_longestRun (h : longestRun c s = 0) : c ∉ s := by
  intro hmem
  obtain ⟨before, after, rfl⟩ := List.append_of_mem hmem
  have : List.replicate 1 c <:+: before ++ c :: after := ⟨before, after, by simp⟩
  have := le_longestRun this
  omega

theorem ofString_spec (s : List Char) :
    (Form.ofString s = .literal → (∀ c ∈ s, isPlain c = true) ∧ '\'' ∉ s) ∧
      (Form.ofString s = .literalLines →
        (∀ c ∈ s, isControl c = false) ∧ ¬ List.replicate 3 '\'' <:+: s) := by
  unfold Form.ofString
  dsimp only
  split
  · exact ⟨nofun, nofun⟩
  · split
    · rename_i hform
      simp only [Bool.and_eq_true, Bool.not_eq_true', decide_eq_true_eq, List.any_eq_false,
        List.contains_eq_mem, decide_eq_false_iff_not] at hform
      obtain ⟨⟨hcontrol, hsingle⟩, hline⟩ := hform
      refine ⟨fun _ => ⟨fun c hc => ?_, notMem_of_longestRun hsingle⟩, nofun⟩
      have hne : c ≠ '\n' := fun heq => hline (heq ▸ hc)
      simpa [isControl, hne] using hcontrol c hc
    · split
      · exact ⟨nofun, nofun⟩
      · split
        · rename_i hform
          simp only [Bool.and_eq_true, Bool.not_eq_true', decide_eq_true_eq, List.any_eq_false,
            Bool.not_eq_true] at hform
          refine ⟨nofun, fun _ => ⟨hform.1, fun hin => ?_⟩⟩
          have := le_longestRun hin
          omega
        · split <;> exact ⟨nofun, nofun⟩

theorem ofName_spec (s : List Char) : (Form.ofName s).isLines = false ∧
    (Form.ofName s = .literal → (∀ c ∈ s, isPlain c = true) ∧ '\'' ∉ s) := by
  unfold Form.ofName
  dsimp only
  split
  · exact ⟨rfl, nofun⟩
  · split
    · rename_i hform
      simp only [Bool.and_eq_true, Bool.not_eq_true', List.any_eq_false,
        Bool.not_eq_false, List.contains_eq_mem, decide_eq_false_iff_not] at hform
      exact ⟨rfl, fun _ => hform⟩
    · exact ⟨rfl, nofun⟩

theorem afterLineEnd_plain (h : isPlain c = true) : afterLineEnd (c :: s) = c :: s := by
  have hline := ne_lineEnd_of_plain h
  unfold afterLineEnd lineEnd?
  split
  · rename_i heq
    exact absurd (List.cons.inj heq).1 hline.1
  · rename_i heq
    exact absurd (List.cons.inj heq).1 hline.2
  · rfl

theorem afterLineEnd_start (hs : '\n' ∉ s → afterLineEnd t = t) :
    afterLineEnd ((if '\n' ∈ s then ['\n'] else []) ++ t) = t := by
  split
  · rfl
  · rename_i h
    exact hs h

theorem afterLineEnd_basicBody (hs : '\n' ∉ s) (allowed : Nat) (lines : Bool) (quotes : Nat) :
    afterLineEnd (basicBody allowed lines quotes s ++ '"' :: t) =
      basicBody allowed lines quotes s ++ '"' :: t := by
  cases s with
  | nil => rfl
  | cons c s =>
    obtain ⟨d, text, heq, -, hplain⟩ := basicBody_cons allowed lines quotes c s
    rw [heq]
    apply afterLineEnd_plain
    apply hplain.resolve_right
    rintro rfl
    exact hs List.mem_cons_self

theorem afterLineEnd_literal (hs : '\n' ∉ s) (hcontrol : ∀ c ∈ s, isControl c = false) :
    afterLineEnd (s ++ '\'' :: t) = s ++ '\'' :: t := by
  cases s with
  | nil => rfl
  | cons c s =>
    apply afterLineEnd_plain
    have hne : c ≠ '\n' := fun heq => hs (heq ▸ List.mem_cons_self)
    simpa [isControl, hne] using hcontrol c List.mem_cons_self

theorem linesString_inForm {f : Form} (hf : f.isLines = true)
    (hliteral : f = .literalLines →
      (∀ c ∈ s, isControl c = false) ∧ ¬ List.replicate 3 '\'' <:+: s)
    (hrest : rest.head? ≠ some '"' ∧ rest.head? ≠ some '\'') :
    linesString (inForm f s ++ rest) = some (String.ofList s, rest) := by
  cases f with
  | basic => cases hf
  | literal => cases hf
  | basicLines =>
    have hbody := basicLines_basicBody (t := '"' :: '"' :: '"' :: rest) ⟨rfl, hrest.1⟩ s 0
    have hstart := afterLineEnd_start (s := s)
      (fun hs => afterLineEnd_basicBody (t := '"' :: '"' :: rest) hs 2 true 0)
    simp [linesString, inForm, Form.delimiter, Form.isLines, Form.hasEscapes, hstart, hbody]
  | literalLines =>
    obtain ⟨hcontrol, hquotes⟩ := hliteral rfl
    have hbody := literalLines_append (t := '\'' :: '\'' :: '\'' :: rest) ⟨rfl, hrest.2⟩
      hcontrol hquotes
    have hstart := afterLineEnd_start (s := s)
      (fun hs => afterLineEnd_literal (t := '\'' :: '\'' :: rest) hs hcontrol)
    simp [linesString, inForm, Form.delimiter, Form.isLines, Form.hasEscapes, hstart, hbody]

theorem lines_seen (f : Form) (hliteral : f = .literal → '\'' ∉ s)
    (hrest : rest.head? ≠ some '"' ∧ rest.head? ≠ some '\'') :
    (List.isPrefixOf ['"', '"', '"'] (inForm f s ++ rest) ||
      List.isPrefixOf ['\'', '\'', '\''] (inForm f s ++ rest)) = f.isLines := by
  cases f with
  | basic =>
    rcases hbody : basicBody 0 false 0 s with _ | ⟨d, text⟩
    · rcases rest with _ | ⟨c, rest⟩
      · simp [inForm, Form.delimiter, Form.isLines, Form.hasEscapes, List.isPrefixOf, hbody]
      · have hc : '"' ≠ c := fun heq => hrest.1 (heq ▸ rfl)
        simp [inForm, Form.delimiter, Form.isLines, Form.hasEscapes, List.isPrefixOf, hbody,
          hc]
    · have hd : '"' ≠ d := by
        rintro rfl
        obtain ⟨_, -, hfew, -⟩ := basicBody_eq_quote hbody
        exact absurd hfew (Nat.not_lt_zero 0)
      simp [inForm, Form.delimiter, Form.isLines, Form.hasEscapes, List.isPrefixOf, hbody, hd]
  | literal =>
    rcases s with _ | ⟨d, text⟩
    · rcases rest with _ | ⟨c, rest⟩
      · simp [inForm, Form.delimiter, Form.isLines, Form.hasEscapes, List.isPrefixOf]
      · have hc : '\'' ≠ c := fun heq => hrest.2 (heq ▸ rfl)
        simp [inForm, Form.delimiter, Form.isLines, Form.hasEscapes, List.isPrefixOf, hc]
    · have hd : '\'' ≠ d := fun heq => hliteral rfl (heq ▸ List.mem_cons_self)
      simp [inForm, Form.delimiter, Form.isLines, Form.hasEscapes, List.isPrefixOf, hd]
  | basicLines => simp [inForm, Form.delimiter, Form.isLines]
  | literalLines => simp [inForm, Form.delimiter, Form.isLines]

theorem anyString_stringText (x : String) (rest : List Char)
    (hrest : rest.head? ≠ some '"' ∧ rest.head? ≠ some '\'') :
    anyString (stringText x ++ rest) = some (x, rest) := by
  obtain ⟨hliteral, hlines⟩ := ofString_spec x.toList
  have hseen := lines_seen _ (fun h => (hliteral h).2) hrest
  unfold anyString stringText
  simp only [bind_apply, sees_apply, Option.bind_some, hseen]
  cases hf : (Form.ofString x.toList).isLines with
  | true => simpa using linesString_inForm hf hlines hrest
  | false => simpa using lineString_inForm hf hliteral rest

theorem inForm_eq_cons (f : Form) (s : List Char) :
    ∃ c t, inForm f s = c :: t ∧ (c = '"' ∨ c = '\'') := by
  cases f with
  | basic => exact ⟨_, _, rfl, .inl rfl⟩
  | literal => exact ⟨_, _, rfl, .inr rfl⟩
  | basicLines => exact ⟨_, _, rfl, .inl rfl⟩
  | literalLines => exact ⟨_, _, rfl, .inr rfl⟩

theorem name_nameText (x : String) (hrest : ∀ c ∈ rest.head?, isBare c = false) :
    name (nameText x ++ rest) = some (x, rest) := by
  unfold nameText
  split
  · rename_i hbare
    simp only [Bool.and_eq_true, Bool.not_eq_true', List.all_eq_true] at hbare
    obtain ⟨hempty, hall⟩ := hbare
    have hsome : x.toList ≠ [] := by simpa using hempty
    have hread := someRun_append hsome hall hrest
    unfold name
    rw [bind_apply, peek?_apply, Option.bind_some]
    dsimp only
    obtain ⟨c, cs, hx⟩ := List.exists_cons_of_ne_nil hsome
    have hc : c ≠ '"' ∧ c ≠ '\'' := by
      have := hall c (hx ▸ List.mem_cons_self)
      constructor
      all_goals
        rintro rfl
        exact absurd this (by decide)
    have hfirst : (x.toList ++ rest).head? = some c := by rw [hx, List.cons_append, List.head?_cons]
    simp [hfirst, hc.1, hc.2, hread]
  · obtain ⟨hlines, hliteral⟩ := ofName_spec x.toList
    have hread := lineString_inForm hlines hliteral rest
    rw [String.ofList_toList] at hread
    obtain ⟨c, t, ht, hc⟩ := inForm_eq_cons (.ofName x.toList) x.toList
    rw [ht, List.cons_append] at hread ⊢
    unfold name
    rw [bind_apply, peek?_apply, Option.bind_some]
    rcases hc with rfl | rfl
    · exact hread
    · exact hread

theorem nameText_eq_cons (x : String) :
    ∃ c t, nameText x = c :: t ∧ (isBare c = true ∨ c = '"' ∨ c = '\'') := by
  unfold nameText
  split
  · rename_i hbare
    simp only [Bool.and_eq_true, Bool.not_eq_true', List.all_eq_true] at hbare
    have hsome : x.toList ≠ [] := by simpa using hbare.1
    obtain ⟨c, t, ht⟩ := List.exists_cons_of_ne_nil hsome
    exact ⟨c, t, ht, .inl (hbare.2 c (ht ▸ List.mem_cons_self))⟩
  · obtain ⟨c, t, ht, hc⟩ := inForm_eq_cons (.ofName x.toList) x.toList
    exact ⟨c, t, ht, .inr hc⟩

end Steward.Toml
