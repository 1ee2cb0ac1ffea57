import Steward.Proofs.Config.Layers
import Steward.Proofs.Toml.Statements
/-!
A document of assignments and tables is read as its settings, if each of its values is read; if one
of them is not, neither is the document.
-/
namespace Steward.Toml

open Text (Scan)
open Text.Scan

abbrev Texts := List (String × List Char)

abbrev Readings := List (String × Option Setting)

variable {ts : Texts} {fs : Readings} {tables : List (String × Texts)}
  {gs : List (String × Readings)} {d : Draft} {n : Nat} {rest : List Char} {x : String}
  {es inner : Entries}

def linesText (ts : Texts) : List Char := ts.flatMap fun t => assignmentLine t.1 t.2

def documentText (root : Texts) (tables : List (String × Texts)) : List Char :=
  linesText root ++ tables.flatMap fun t => tableText t.1 t.2

def SpellsAll (ts : Texts) (fs : Readings) : Prop :=
  List.Forall₂ (fun t f => t.1 = f.1 ∧ Spells t.2 f.2) ts fs

theorem SpellsAll.nil : SpellsAll [] [] := List.Forall₂.nil

theorem SpellsAll.cons {text : List Char} {found : Option Setting} (h : Spells text found)
    (hs : SpellsAll ts fs) : SpellsAll ((x, text) :: ts) ((x, found) :: fs) :=
  List.Forall₂.cons ⟨rfl, h⟩ hs

theorem rightUnique_spellsAll : Relator.RightUnique SpellsAll := by
  intro ts fs gs h h'
  refine List.right_unique_forall₂' (fun t f g hf hg => ?_) h h'
  exact Prod.ext (hf.1.symm.trans hg.1) (rightUnique_spells hf.2 hg.2)

def settled (fs : Readings) : Option (List (String × Setting)) :=
  fs.mapM fun f => f.2.map fun s => (f.1, s)

theorem settled_some (x : String) (s : Setting) (fs : Readings) :
    settled ((x, some s) :: fs) = (settled fs).map ((x, s) :: ·) := by
  unfold settled
  rw [List.mapM_cons]
  cases fs.mapM fun f => f.2.map fun s => (f.1, s) <;> rfl

theorem settled_none (x : String) (fs : Readings) : settled ((x, none) :: fs) = none := by
  unfold settled
  rw [List.mapM_cons]
  rfl

theorem names_settled {ms : List (String × Setting)} (h : settled fs = some ms) :
    ms.map (·.1) = fs.map (·.1) := by
  induction fs generalizing ms with
  | nil =>
    cases h
    rfl
  | cons f fs ih =>
    obtain ⟨x, found⟩ := f
    cases found with
    | none =>
      rw [settled_none] at h
      cases h
    | some s =>
      rw [settled_some, Option.map_eq_some_iff] at h
      obtain ⟨ns, hns, rfl⟩ := h
      rw [List.map_cons, List.map_cons, ih hns]

def settledTables (gs : List (String × Readings)) :
    Option (List (String × List (String × Setting))) :=
  gs.mapM fun g => (settled g.2).map fun ms => (g.1, ms)

theorem settledTables_cons (x : String) (fs : Readings) (gs : List (String × Readings)) :
    settledTables ((x, fs) :: gs) =
      (settled fs).bind fun ms => (settledTables gs).map ((x, ms) :: ·) := by
  unfold settledTables
  rw [List.mapM_cons]
  cases settled fs with
  | none => rfl
  | some ms => cases gs.mapM fun g => (settled g.2).map fun ms => (g.1, ms) <;> rfl

theorem settled_eq_none (h : (x, none) ∈ fs) : settled fs = none := by
  induction fs with
  | nil => cases h
  | cons f fs ih =>
    obtain ⟨y, found⟩ := f
    cases found with
    | none => exact settled_none y fs
    | some s =>
      rw [settled_some, ih (by simpa using h), Option.map_none]

theorem settledTables_eq_none {y : String} (hg : (y, fs) ∈ gs) (hf : (x, none) ∈ fs) :
    settledTables gs = none := by
  induction gs with
  | nil => cases hg
  | cons g gs ih =>
    obtain ⟨z, rs⟩ := g
    rw [settledTables_cons]
    rcases List.mem_cons.1 hg with heq | hg
    · cases heq
      rw [settled_eq_none hf, Option.bind_none]
    · rw [ih hg]
      cases settled rs <;> rfl

def Draft.noting (d : Draft) : Readings → Option Draft
  | [] => some d
  | (x, found) :: fs =>
    (found.bind fun s => d.add (.assign ⟨[], x, s⟩)).bind fun d => d.noting fs

def Draft.notingTables (d : Draft) : List (String × Readings) → Option Draft
  | [] => some d
  | (x, fs) :: gs =>
    ((d.add (.table [x])).bind fun d => d.noting fs).bind fun d => d.notingTables gs

theorem statements_lines (h : SpellsAll ts fs) (n : Nat) (d : Draft) (rest : List Char) :
    statements (n + ts.length + 1) d (linesText ts ++ rest) =
      (d.noting fs).bind fun d => statements (n + 1) d rest := by
  induction h generalizing d with
  | nil => rfl
  | @cons t f ts fs ht hts ih =>
    obtain ⟨x, text⟩ := t
    obtain ⟨y, found⟩ := f
    obtain ⟨rfl, hspells⟩ := ht
    have htext : linesText ((x, text) :: ts) ++ rest =
        assignmentLine x text ++ (linesText ts ++ rest) := by
      simp [linesText]
    rw [htext, List.length_cons, ← Nat.add_assoc, statements_assignment hspells]
    simp only [statements_newline, ih, Draft.noting, Option.bind_assoc]

theorem statements_table (h : SpellsAll ts fs) (x : String) (n : Nat) (d : Draft)
    (rest : List Char) : statements (n + (ts.length + 1) + 1) d (tableText x ts ++ rest) =
      ((d.add (.table [x])).bind fun d => d.noting fs).bind fun d => statements (n + 1) d rest := by
  have htext : tableText x ts ++ rest =
      '\n' :: '[' :: (nameText x ++ ']' :: '\n' :: (linesText ts ++ rest)) := by
    simp [tableText, linesText]
  rw [htext, statements_newline, statements_header, ← Nat.add_assoc]
  simp only [statements_newline, statements_lines h, Option.bind_assoc]

def lineCount (tables : List (String × Texts)) : Nat := (tables.map fun t => t.2.length + 1).sum

theorem statements_tables
    (h : List.Forall₂ (fun t g => t.1 = g.1 ∧ SpellsAll t.2 g.2) tables gs) (n : Nat) (d : Draft)
    (rest : List Char) :
    statements (n + lineCount tables + 1) d
        ((tables.flatMap fun t => tableText t.1 t.2) ++ rest) =
      (d.notingTables gs).bind fun d => statements (n + 1) d rest := by
  induction h generalizing d with
  | nil => rfl
  | @cons t g tables gs ht hts ih =>
    obtain ⟨x, ts⟩ := t
    obtain ⟨y, fs⟩ := g
    obtain ⟨rfl, hspells⟩ := ht
    have hcount : n + lineCount ((x, ts) :: tables) + 1 =
        n + lineCount tables + (ts.length + 1) + 1 := by
      simp [lineCount]
      omega
    rw [List.flatMap_cons, List.append_assoc, hcount, statements_table hspells]
    simp only [ih, Draft.notingTables, Option.bind_assoc]

def valuesOf (ms : List (String × Setting)) : Entries := ms.map fun m => (m.1, .value m.2)

theorem define_of_notMem (h : x ∉ es.map (·.1)) (node : Node) :
    es.define x node = some (es ++ [(x, node)]) := by
  unfold Entries.define
  rw [Keyed.lookup_eq_none_of_notMem h]
  rfl

theorem noting_eq {place : Entries → Draft}
    (hplace : ∀ inner x s, (place inner).add (.assign ⟨[], x, s⟩) =
      (Entries.define inner x (.value s)).map place)
    (inner : Entries) (hnames : (inner.map (·.1) ++ fs.map (·.1)).Nodup) :
    (place inner).noting fs = (settled fs).map fun ms => place (inner ++ valuesOf ms) := by
  induction fs generalizing inner with
  | nil => simp [Draft.noting, settled, valuesOf]
  | cons f fs ih =>
    obtain ⟨x, found⟩ := f
    have hx : x ∉ inner.map (·.1) := by
      intro hin
      exact (List.nodup_append.1 hnames).2.2 x hin x (by simp) rfl
    cases found with
    | none => rw [settled_none, Draft.noting, Option.bind_none, Option.bind_none, Option.map_none]
    | some s =>
      have ih := ih (inner ++ [(x, .value s)]) (by simpa using hnames)
      rw [Draft.noting, Option.bind_some, hplace, define_of_notMem hx, Option.map_some,
        Option.bind_some, ih, settled_some, Option.map_map]
      congr 1
      funext ms
      simp [valuesOf]

theorem add_root (es : Entries) (x : String) (s : Setting) :
    (Draft.mk es []).add (.assign ⟨[], x, s⟩) =
      (es.define x (.value s)).map fun es => ⟨es, []⟩ := by
  show (es.define x (.value s)).bind (fun es => some (Draft.mk es [])) = _
  exact Option.map_eq_bind.symm

theorem put_append (h : x ∉ es.map (·.1)) (old new : Node) :
    Keyed.put (es ++ [(x, old)]) x new = es ++ [(x, new)] := by
  induction es with
  | nil => simp [Keyed.put]
  | cons e es ih =>
    rw [List.map_cons, List.mem_cons, not_or] at h
    rw [List.cons_append, Keyed.put, if_neg (Ne.symm h.1), ih h.2, List.cons_append]

theorem lookup_append (h : x ∉ es.map (·.1)) (node : Node) :
    (es ++ [(x, node)]).lookup x = some node := by
  rw [List.lookup_append, Keyed.lookup_eq_none_of_notMem h, Option.none_or, List.lookup_cons_self]

theorem add_under (h : x ∉ es.map (·.1)) (inner : Entries) (y : String) (s : Setting) :
    (Draft.mk (es ++ [(x, .table false false inner)]) [x]).add (.assign ⟨[], y, s⟩) =
      (inner.define y (.value s)).map fun inner =>
        ⟨es ++ [(x, .table false false inner)], [x]⟩ := by
  have hwithin : Entries.assignUnder (es ++ [(x, .table false false inner)]) [x] [] y s =
      (inner.define y (.value s)).map fun inner => es ++ [(x, .table false false inner)] := by
    unfold Entries.assignUnder Entries.within
    rw [lookup_append h]
    show (inner.define y (.value s)).bind (fun inner' => some (Keyed.put
      (es ++ [(x, .table false false inner)]) x (.table false false inner'))) = _
    simp only [put_append h]
    exact Option.map_eq_bind.symm
  show (Entries.assignUnder _ [x] [] y s).bind (fun es => some (Draft.mk es [x])) = _
  rw [hwithin, Option.map_eq_bind, Option.bind_assoc, Option.map_eq_bind]
  rfl

theorem add_table (h : x ∉ es.map (·.1)) (header : List String) :
    (Draft.mk es header).add (.table [x]) =
      some ⟨es ++ [(x, .table false false [])], [x]⟩ := by
  have hopen : es.openTable [] x = some (es ++ [(x, .table false false [])]) := by
    unfold Entries.openTable Entries.within
    rw [Keyed.lookup_eq_none_of_notMem h]
  show (es.openTable [] x).bind (fun es => some (Draft.mk es [x])) = _
  rw [hopen]
  rfl

def tablesOf (rs : List (String × List (String × Setting))) : Entries :=
  rs.map fun r => (r.1, .table false false (valuesOf r.2))

theorem notingTables_eq (es : Entries) (header : List String)
    (hnames : (es.map (·.1) ++ gs.map (·.1)).Nodup)
    (hinner : ∀ g ∈ gs, (g.2.map (·.1)).Nodup) :
    ((Draft.mk es header).notingTables gs).map (·.entries) =
      (settledTables gs).map fun rs => es ++ tablesOf rs := by
  induction gs generalizing es header with
  | nil => simp [Draft.notingTables, settledTables, tablesOf]
  | cons g gs ih =>
    obtain ⟨x, fs⟩ := g
    have hx : x ∉ es.map (·.1) := by
      intro hin
      exact (List.nodup_append.1 hnames).2.2 x hin x (by simp) rfl
    have hfs := noting_eq (add_under hx) [] (by simpa using hinner (x, fs) (by simp))
    rw [Draft.notingTables, add_table hx, Option.bind_some, hfs, settledTables_cons]
    cases settled fs with
    | none => rfl
    | some ms =>
      rw [Option.map_some, Option.bind_some, Option.bind_some]
      rw [ih _ [x] (by simpa using hnames) (fun g hg => hinner g (List.mem_cons_of_mem _ hg)),
        Option.map_map]
      congr 1
      funext rs
      simp [tablesOf]

theorem settleEntries_append (as bs : Entries) :
    settleEntries (as ++ bs) = settleEntries as ++ settleEntries bs := by
  induction as with
  | nil => rfl
  | cons a as ih => rw [List.cons_append, settleEntries, ih, settleEntries, List.cons_append]

theorem settleEntries_valuesOf (ms : List (String × Setting)) :
    settleEntries (valuesOf ms) = ms := by
  induction ms with
  | nil => rfl
  | cons m ms ih =>
    have hm : valuesOf (m :: ms) = (m.1, .value m.2) :: valuesOf ms := rfl
    rw [hm, settleEntries, ih, Node.settle]

theorem settleEntries_tablesOf (rs : List (String × List (String × Setting))) :
    settleEntries (tablesOf rs) = rs.map fun r => (r.1, .group r.2) := by
  induction rs with
  | nil => rfl
  | cons r rs ih =>
    have hr : tablesOf (r :: rs) = (r.1, .table false false (valuesOf r.2)) :: tablesOf rs := rfl
    rw [hr, settleEntries, ih, Node.settle, settleEntries_valuesOf, List.map_cons]

theorem length_linesText (ts : Texts) : ts.length ≤ (linesText ts).length := by
  induction ts with
  | nil => exact Nat.le_refl 0
  | cons t ts ih =>
    simp only [linesText, List.flatMap_cons, List.length_append, assignmentLine,
      List.length_cons] at ih ⊢
    omega

theorem lineCount_le (tables : List (String × Texts)) :
    lineCount tables ≤ (tables.flatMap fun t => tableText t.1 t.2).length := by
  induction tables with
  | nil => exact Nat.le_refl 0
  | cons t tables ih =>
    have hlines := length_linesText t.2
    simp only [lineCount, linesText, List.map_cons, List.sum_cons, List.flatMap_cons,
      List.length_append, tableText, List.length_cons, List.length_nil] at ih hlines ⊢
    omega

theorem statements_documentText {root : Texts} {fs : Readings} (hroot : SpellsAll root fs)
    (htables : List.Forall₂ (fun t g => t.1 = g.1 ∧ SpellsAll t.2 g.2) tables gs) :
    statements ((documentText root tables).length + 1) {} (documentText root tables) =
      (({} : Draft).noting fs).bind fun d => (d.notingTables gs).map fun d => (d, []) := by
  have hlines := length_linesText root
  have hcount := lineCount_le tables
  obtain ⟨n, hn⟩ : ∃ n, (documentText root tables).length =
      n + lineCount tables + root.length := by
    refine ⟨(documentText root tables).length - lineCount tables - root.length, ?_⟩
    rw [documentText, List.length_append]
    omega
  have hread (d : Draft) := statements_tables htables n d []
  rw [hn]
  unfold documentText
  rw [statements_lines hroot]
  simp only [List.append_nil, statements_end] at hread
  simp only [hread, Option.map_eq_bind]
  rfl

theorem read?_of_unmarked {text : List Char} (h : text.head? ≠ some '\ufeff') :
    read? (String.ofList text) = (whole? (statements (text.length + 1) {}) text).map fun d =>
      .group (settleEntries d.entries) := by
  unfold read?
  rw [String.toList_ofList, Option.map_eq_bind]
  split
  · exact absurd rfl h
  · rfl

/-- A document is read as its settings. Names of assignments and tables must differ, and so must
the names in each table. -/
theorem read?_documentText {root : Texts} {fs : Readings} (hroot : SpellsAll root fs)
    (htables : List.Forall₂ (fun t g => t.1 = g.1 ∧ SpellsAll t.2 g.2) tables gs)
    (hnames : (fs.map (·.1) ++ gs.map (·.1)).Nodup)
    (hinner : ∀ g ∈ gs, (g.2.map (·.1)).Nodup)
    (hmark : (documentText root tables).head? ≠ some '\ufeff') :
    read? (String.ofList (documentText root tables)) =
      (settled fs).bind fun ms => (settledTables gs).map fun rs =>
        .group (ms ++ rs.map fun r => (r.1, .group r.2)) := by
  have hall := statements_documentText hroot htables
  have hnoted : ({} : Draft).noting fs = (settled fs).map fun ms => ⟨valuesOf ms, []⟩ :=
    noting_eq add_root [] (List.nodup_append.1 hnames).1
  rw [read?_of_unmarked hmark]
  unfold whole?
  rw [hall, hnoted]
  cases hms : settled fs with
  | none => rfl
  | some ms =>
    have hvalues : (valuesOf ms).map (·.1) = fs.map (·.1) := by
      rw [← names_settled hms]
      simp [valuesOf]
    have hnoting := notingTables_eq (valuesOf ms) [] (hvalues ▸ hnames) hinner
    rw [Option.map_some, Option.bind_some, Option.bind_some]
    rcases hd : (Draft.mk (valuesOf ms) []).notingTables gs with _ | d
    · rw [hd, Option.map_none, eq_comm, Option.map_eq_none_iff] at hnoting
      rw [hnoting]
      rfl
    · rw [hd, Option.map_some, eq_comm, Option.map_eq_some_iff] at hnoting
      obtain ⟨rs, hrs, hentries⟩ := hnoting
      rw [hrs, Option.map_some, Option.map_some, Option.map_some, ← hentries, settleEntries_append,
        settleEntries_valuesOf, settleEntries_tablesOf]

end Steward.Toml
