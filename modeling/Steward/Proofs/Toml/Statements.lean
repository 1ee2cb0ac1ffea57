import Steward.Proofs.Toml.Scalars
/-!
The lines of a TOML document, as they are written and read: assignments of values, and headers of
tables.
-/
namespace Steward.Toml

open Text (Scan)
open Text.Scan

variable {c : Char} {s t rest text : List Char} {n : Nat} {x : String} {found : Option Setting}
  {d : Draft}

structure EndsKey (rest : List Char) : Prop where
  bare : ∀ c ∈ rest.head?, isBare c = false
  point : List.isPrefixOf ['.'] (rest.dropWhile isBlank) = false

theorem dropWhile_blank (h : isBlank c = false) : (c :: s).dropWhile isBlank = c :: s :=
  List.dropWhile_cons_of_neg (by simp [h])

theorem nameText_first (x : String) : ∃ c t, nameText x = c :: t ∧
    isBlank c = false ∧ c ≠ '[' ∧ c ≠ '#' ∧ c ≠ '\n' ∧ c ≠ '\r' := by
  obtain ⟨c, t, ht, hc⟩ := nameText_eq_cons x
  refine ⟨c, t, ht, ?_⟩
  have hne : ∀ d, isBare d = false → d ≠ '"' → d ≠ '\'' → c ≠ d := by
    rintro d hbare hdouble hsingle rfl
    rcases hc with hc | hc | hc
    · rw [hbare] at hc
      cases hc
    · exact hdouble hc
    · exact hsingle hc
  have hspace := hne ' ' (by decide) (by decide) (by decide)
  have htab := hne '\t' (by decide) (by decide) (by decide)
  exact ⟨by simp [isBlank, hspace, htab], hne '[' (by decide) (by decide) (by decide),
    hne '#' (by decide) (by decide) (by decide), hne '\n' (by decide) (by decide) (by decide),
    hne '\r' (by decide) (by decide) (by decide)⟩

theorem key_nameText (x : String) (rest : List Char) (h : EndsKey rest) :
    key (nameText x ++ rest) = some ([x], rest.dropWhile isBlank) := by
  obtain ⟨c, t, ht, hc, -⟩ := nameText_first x
  have hname := name_nameText x h.bare
  rw [ht, List.cons_append] at hname ⊢
  unfold key
  rw [show nesting - 1 = 78 + 1 from rfl]
  unfold names
  rw [bind_apply, discard_apply, run_apply, dropWhile_blank hc, Option.map_some, Option.bind_some,
    bind_apply, hname, Option.bind_some, bind_apply, discard_apply, run_apply, Option.map_some,
    Option.bind_some, bind_apply, eat_eq_false h.point]
  rfl

theorem assignment_line (h : Spells text found) (x : String) (rest : List Char) :
    assignment (value (nesting - 1)) (nameText x ++ ' ' :: '=' :: ' ' :: (text ++ '\n' :: rest)) =
      found.map fun s => (⟨[], x, s⟩, '\n' :: rest) := by
  obtain ⟨c, t, ht, hc⟩ := h.first
  have hread := h.read rest
  have hkey := key_nameText x (' ' :: '=' :: ' ' :: (text ++ '\n' :: rest))
    ⟨by simp [isBare], rfl⟩
  have hblank : (' ' :: (text ++ '\n' :: rest)).dropWhile isBlank = text ++ '\n' :: rest := by
    rw [List.dropWhile_cons_of_pos rfl, ht, List.cons_append, dropWhile_blank hc]
  have hequal : exactly ['='] ('=' :: ' ' :: (text ++ '\n' :: rest)) =
      some ((), ' ' :: (text ++ '\n' :: rest)) := rfl
  rw [List.dropWhile_cons_of_pos rfl, dropWhile_blank rfl] at hkey
  unfold assignment
  rw [bind_apply, hkey, Option.bind_some]
  show ((do
    exactly ['=']
    discard (run isBlank)
    return ⟨[], x, ← value (nesting - 1)⟩) : Scan Assignment) _ = _
  rw [bind_apply, hequal, Option.bind_some, bind_apply, discard_apply, run_apply, hblank,
    Option.map_some, Option.bind_some, bind_apply, hread]
  cases found <;> rfl

theorem statement_assignment (h : Spells text found) (x : String) (rest : List Char) :
    statement (assignmentLine x text ++ rest) =
      found.map fun s => (.assign ⟨[], x, s⟩, '\n' :: rest) := by
  obtain ⟨c, t, ht, -, hbracket, -⟩ := nameText_first x
  have hline : assignmentLine x text ++ rest =
      nameText x ++ ' ' :: '=' :: ' ' :: (text ++ '\n' :: rest) := by
    simp [assignmentLine]
  have hread := assignment_line h x rest
  rw [hline]
  rw [ht, List.cons_append] at hread ⊢
  have hitem : ∀ more s, eat ('[' :: more) (c :: s) = some (false, c :: s) := by
    intro more s
    exact eat_eq_false (by simp [List.isPrefixOf, hbracket.symm])
  unfold statement
  rw [bind_apply, hitem, Option.bind_some, if_neg Bool.false_ne_true, bind_apply, hitem,
    Option.bind_some, if_neg Bool.false_ne_true, bind_apply, hread]
  cases found <;> rfl

theorem statement_header (x : String) (rest : List Char) :
    statement ('[' :: (nameText x ++ ']' :: rest)) = some (.table [x], rest) := by
  obtain ⟨c, t, ht, -, hbracket, -⟩ := nameText_first x
  have hkey := key_nameText x (']' :: rest) ⟨by simp [isBare], rfl⟩
  rw [dropWhile_blank rfl] at hkey
  have hitem : eat ['[', '['] ('[' :: (nameText x ++ ']' :: rest)) =
      some (false, '[' :: (nameText x ++ ']' :: rest)) := by
    apply eat_eq_false
    rw [ht]
    simp [List.isPrefixOf, hbracket.symm]
  have htable : eat ['['] ('[' :: (nameText x ++ ']' :: rest)) =
      some (true, nameText x ++ ']' :: rest) := rfl
  unfold statement
  rw [bind_apply, hitem, Option.bind_some, if_neg Bool.false_ne_true, bind_apply, htable,
    Option.bind_some, if_pos rfl, bind_apply, hkey]
  rfl

theorem statements_newline (n : Nat) (d : Draft) (s : List Char) :
    statements (n + 1) d ('\n' :: s) = statements (n + 1) d s := rfl

theorem statements_end (n : Nat) (d : Draft) : statements (n + 1) d [] = some (d, []) := rfl

theorem skipBlank_start (hblank : isBlank c = false) (hcomment : c ≠ '#') (hline : c ≠ '\n')
    (hreturn : c ≠ '\r') (s : List Char) : skipBlank (c :: s) = some ((), c :: s) := by
  unfold skipBlank pastBlank
  split
  · rename_i heq
    cases heq
  · rename_i heq
    exact absurd (List.cons.inj heq).1 hline
  · rename_i heq
    exact absurd (List.cons.inj heq).1 hreturn
  · rename_i heq
    cases heq
    simp [hblank, hcomment]

theorem statements_line {statementText : List Char} {read : Option Statement}
    (hstart : skipBlank statementText = some ((), statementText)) (hsome : statementText ≠ [])
    (hread : statement statementText = read.map fun s => (s, '\n' :: rest)) (n : Nat) (d : Draft) :
    statements (n + 1) d statementText =
      (read.bind d.add).bind fun d => statements n d ('\n' :: rest) := by
  obtain ⟨c, t, rfl⟩ := List.exists_cons_of_ne_nil hsome
  have hend : endLine ('\n' :: rest) = some ((), '\n' :: rest) := rfl
  rw [statements, bind_apply, hstart, Option.bind_some, bind_apply, peek?_apply, Option.bind_some,
    List.head?_cons, Option.isNone_some, if_neg Bool.false_ne_true, bind_apply, hread]
  cases read with
  | none => rfl
  | some s =>
    rw [Option.map_some, Option.bind_some, Option.bind_some]
    cases d.add s with
    | none => rfl
    | some d =>
      dsimp only
      rw [bind_apply, hend]
      rfl

theorem statements_assignment (h : Spells text found) (x : String) (rest : List Char) (n : Nat)
    (d : Draft) : statements (n + 1) d (assignmentLine x text ++ rest) =
      (found.bind fun s => d.add (.assign ⟨[], x, s⟩)).bind fun d =>
        statements n d ('\n' :: rest) := by
  have hread : statement (assignmentLine x text ++ rest) =
      (found.map fun s => Statement.assign ⟨[], x, s⟩).map fun s => (s, '\n' :: rest) := by
    rw [statement_assignment h, Option.map_map]
    rfl
  obtain ⟨c, t, ht, hblank, -, hcomment, hline, hreturn⟩ := nameText_first x
  obtain ⟨s, hs⟩ : ∃ s, assignmentLine x text ++ rest = c :: s := by
    rw [assignmentLine, ht]
    exact ⟨_, rfl⟩
  rw [hs] at hread ⊢
  rw [statements_line (skipBlank_start hblank hcomment hline hreturn s) (by simp) hread]
  cases found <;> rfl

theorem statements_header (x : String) (rest : List Char) (n : Nat) (d : Draft) :
    statements (n + 1) d ('[' :: (nameText x ++ ']' :: '\n' :: rest)) =
      (d.add (.table [x])).bind fun d => statements n d ('\n' :: rest) := by
  have hread : statement ('[' :: (nameText x ++ ']' :: '\n' :: rest)) =
      (some (Statement.table [x])).map fun s => (s, '\n' :: rest) := statement_header x _
  exact statements_line rfl (by simp) hread n d

end Steward.Toml
