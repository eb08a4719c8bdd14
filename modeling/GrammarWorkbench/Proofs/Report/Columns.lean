import GrammarWorkbench.Report.SetsTable
import Mathlib.Algebra.Order.BigOperators.Group.List
import Mathlib.Algebra.Order.Ring.Nat
import Mathlib.Data.List.Forall2

/-!
# Columns of LaTeX tables

A row of a LaTeX table is cut into columns at its ampersands. An ampersand directly behind a
backslash does not count: it is printed (`columnMarks`). Names are arbitrary texts, so they may
hold ampersands and backslashes themselves, and what is written for them stands beside
separators that begin or end with backslashes, and right in front of the marks of the row. A
name could therefore do two kinds of harm: bring a mark of its own, or end in a backslash and
hide the mark behind it.

It does neither. What is written for one character has no mark and does not end in a backslash
(`hasMarks_escapeChar`). Of texts that do not end in a backslash the marks add up when they are
put side by side (`HasMarks.append`, `HasMarks.intercalate`), so a row has the marks that stand
between its columns, and no others (`columnMarks_latex`).

Names are written in one go. Writing the mark `ϵ` in a second one, over the text that came out of
the first, is the same (`escapeChars_eq_writeMark`): no other character is written with the mark.
-/

namespace GrammarWorkbench

namespace Text.Latex

/-! ## Marks between columns -/

/-- The ampersands of a text that do not stand directly behind a backslash; `before` is what
stands in front of the text. -/
def columnMarksBehind (before : Option Char) : List Char → Nat
  | [] => 0
  | c :: cs =>
    (if c = '&' ∧ before ≠ some '\\' then 1 else 0) + columnMarksBehind (some c) cs

/-- **The number of places at which a text is cut into columns**: the ampersands that do not
stand directly behind a backslash. -/
def columnMarks (text : String) : Nat := columnMarksBehind none text.toList

/-- **A text with `n` marks that does not hide a mark behind it**, because it does not end in a
backslash. -/
structure HasMarks (text : List Char) (n : Nat) : Prop where
  count : columnMarksBehind none text = n
  last : text.getLast? ≠ some '\\'

instance (text : List Char) (n : Nat) : Decidable (HasMarks text n) :=
  decidable_of_iff (columnMarksBehind none text = n ∧ text.getLast? ≠ some '\\')
    ⟨fun h => ⟨h.1, h.2⟩, fun h => ⟨h.count, h.last⟩⟩

variable {text text' sep : List Char} {m n : Nat}

/-- Only a backslash in front of a text makes a difference. -/
theorem columnMarksBehind_of_ne {before : Option Char} (h : before ≠ some '\\')
    (text : List Char) : columnMarksBehind before text = columnMarksBehind none text := by
  cases text with
  | nil => rfl
  | cons c cs => simp [columnMarksBehind, h]

theorem columnMarksBehind_append (before : Option Char) (text text' : List Char) :
    columnMarksBehind before (text ++ text')
      = columnMarksBehind before text + columnMarksBehind (text.getLast?.or before) text' := by
  induction text generalizing before with
  | nil => simp [columnMarksBehind]
  | cons c cs ih =>
    have hlast : (c :: cs).getLast?.or before = cs.getLast?.or (some c) := by
      rw [List.getLast?_cons]
      cases cs.getLast? <;> rfl
    rw [List.cons_append, columnMarksBehind, columnMarksBehind, ih, hlast, Nat.add_assoc]

theorem HasMarks.nil : HasMarks [] 0 := ⟨rfl, by simp⟩

/-- **Side by side, the marks of two texts add up.** -/
theorem HasMarks.append (h : HasMarks text m) (h' : HasMarks text' n) :
    HasMarks (text ++ text') (m + n) where
  count := by
    have hlast : text.getLast?.or none ≠ some '\\' := by
      rw [Option.or_none]
      exact h.last
    rw [columnMarksBehind_append, columnMarksBehind_of_ne hlast, h.count, h'.count]
  last := by
    rw [List.getLast?_append]
    cases hlast : text'.getLast? with
    | none => exact h.last
    | some c =>
      rw [Option.some_or, ← hlast]
      exact h'.last

/-- **Separators without marks add none.** -/
theorem HasMarks.intercalate (hsep : HasMarks sep 0) {parts : List (List Char)} {ns : List Nat}
    (h : List.Forall₂ HasMarks parts ns) : HasMarks (sep.intercalate parts) ns.sum := by
  induction h with
  | nil => exact .nil
  | @cons part n parts ns hpart hparts ih =>
    cases parts with
    | nil =>
      obtain rfl := List.forall₂_nil_left_iff.mp hparts
      rw [List.intercalate_singleton, List.sum_singleton]
      exact hpart
    | cons part' parts =>
      rw [List.intercalate_cons_cons, List.sum_cons]
      have hall := (hpart.append hsep).append ih
      rwa [Nat.add_zero] at hall

/-- Parts that have `n` marks each. -/
theorem forall₂_hasMarks_map {α : Type} {f : α → List Char} (h : ∀ a, HasMarks (f a) n)
    (items : List α) : List.Forall₂ HasMarks (items.map f) (items.map fun _ => n) :=
  List.forall₂_map_left_iff.mpr (List.forall₂_map_right_iff.mpr
    (List.forall₂_same.mpr fun a _ => h a))

/-- **Where all parts have `n` marks**, each of them adds `n`. -/
theorem HasMarks.intercalate_map {α : Type} {sep : String} (hsep : HasMarks sep.toList 0)
    {f : α → String} (h : ∀ a, HasMarks (f a).toList n) (items : List α) :
    HasMarks (String.intercalate sep (items.map f)).toList (items.length * n) := by
  have hsum : (items.map fun _ => n).sum = items.length * n := by
    rw [List.map_const', List.sum_replicate_nat]
  rw [String.toList_intercalate, List.map_map, ← hsum]
  exact hsep.intercalate (forall₂_hasMarks_map h items)

/-! ## Names -/

theorem hasMarks_singleton {c : Char} (hmark : c ≠ '&') (hbackslash : c ≠ '\\') :
    HasMarks [c] 0 where
  count := by
    rw [columnMarksBehind, columnMarksBehind, if_neg fun h => hmark h.1]
  last := by
    rw [List.getLast?_singleton]
    exact fun h => hbackslash (Option.some.inj h)

/-- **What is written for a character** has no mark, and does not end in a backslash. -/
theorem hasMarks_escapeChar (mode : Mode) (c : Char) (next : Option Char) :
    HasMarks (escapeChar mode c next).toList 0 := by
  unfold escapeChar
  split
  case h_16 => split <;> decide +kernel
  case h_17 => cases mode <;> decide +kernel
  case h_18 =>
    -- all other characters stand for themselves
    rw [String.toList_singleton]
    exact hasMarks_singleton (by assumption) (by assumption)
  all_goals decide +kernel

/-- **Nor has what is written for a name.** -/
theorem hasMarks_escape (mode : Mode) (name : String) : HasMarks (escape mode name).toList 0 := by
  unfold escape
  rw [String.toList_ofList]
  generalize name.toList = cs
  induction cs with
  | nil => exact .nil
  | cons c cs ih => exact (hasMarks_escapeChar mode c cs.head?).append ih

/-! ## The mark of the empty string -/

/-- A name with its characters written, except for the mark `ϵ`, which is left as it is. -/
def escapeOthers : List Char → List Char
  | [] => []
  | c :: cs => (if c = 'ϵ' then [c] else (escapeChar .math c cs.head?).toList) ++ escapeOthers cs

/-- A text with the mark `ϵ` replaced by the way in which it is written. -/
def writeMark (mode : Mode) (text : List Char) : List Char :=
  text.flatMap fun c => if c = 'ϵ' then mode.epsilon.toList else [c]

theorem writeMark_append (mode : Mode) (text text' : List Char) :
    writeMark mode (text ++ text') = writeMark mode text ++ writeMark mode text' :=
  List.flatMap_append

/-- No other character is written with the mark. -/
theorem writeMark_escapeChar (mode : Mode) {c : Char} (h : c ≠ 'ϵ') (next : Option Char) :
    writeMark mode (escapeChar .math c next).toList = (escapeChar mode c next).toList := by
  unfold escapeChar
  split
  case h_16 => split <;> cases mode <;> decide +kernel
  case h_17 => exact absurd rfl h
  case h_18 =>
    rw [String.toList_singleton, writeMark, List.flatMap_singleton, if_neg h]
  all_goals cases mode <;> decide +kernel

/-- **Writing the mark can be left to the end.** -/
theorem escapeChars_eq_writeMark (mode : Mode) (cs : List Char) :
    escapeChars mode cs = writeMark mode (escapeOthers cs) := by
  induction cs with
  | nil => rfl
  | cons c cs ih =>
    rw [escapeChars, escapeOthers, writeMark_append, ← ih]
    by_cases h : c = 'ϵ'
    · subst h
      rw [if_pos rfl, writeMark, List.flatMap_singleton, if_pos rfl]
      rfl
    · rw [if_neg h, writeMark_escapeChar mode h]

theorem toList_escape (mode : Mode) (name : String) :
    (escape mode name).toList = writeMark mode (escapeOthers name.toList) := by
  rw [escape, String.toList_ofList, escapeChars_eq_writeMark]

end Text.Latex

open Text.Latex

/-! ## Rows -/

theorem RuleRow.hasMarks_latexRight (right : List String) :
    HasMarks (latexRight right).toList 0 :=
  HasMarks.intercalate_map (by decide +kernel) (hasMarks_escape .math) right

/-- **A rule in columns of its own** has two marks, around the arrow. -/
theorem RuleRow.hasMarks_latex (row : RuleRow) (aligned : Bool) :
    HasMarks (row.latex aligned).toList (if aligned then 2 else 0) := by
  have harrow : HasMarks (if aligned then " & \\rightarrow &" else " \\rightarrow ").toList
      (if aligned then 2 else 0) := by
    cases aligned <;> decide +kernel
  have hbar : HasMarks " \\mid ".toList 0 := by decide +kernel
  have hrights := hbar.intercalate_map hasMarks_latexRight row.rights
  unfold latex
  rw [String.toList_append, String.toList_append]
  have hrow := ((hasMarks_escape .math row.left).append harrow).append hrights
  rwa [Nat.zero_add] at hrow

theorem SetsRow.hasMarks_latexNames (names : List String) :
    HasMarks (latexNames names).toList 0 :=
  HasMarks.intercalate_map (by decide +kernel) (hasMarks_escape .text) names

/-- **A rule with its sets** has three marks, between its four columns. -/
theorem SetsRow.hasMarks_latex (row : SetsRow) : HasMarks row.latex.toList 3 := by
  have hmark : HasMarks " & ".toList 1 := by decide +kernel
  have hnullable : HasMarks (Text.Json.bool row.nullable).toList 0 := by
    cases row.nullable <;> decide +kernel
  have hname := ((hasMarks_escape .text row.name).append hmark).append hnullable
  have hfirst := (hname.append hmark).append (hasMarks_latexNames row.first)
  have hrow := (hfirst.append hmark).append (hasMarks_latexNames row.follow)
  unfold latex
  simp only [String.toList_append]
  exact hrow

/-! ## Tables -/

/-- A table of rules has the marks of its rows. -/
theorem RuleListing.hasMarks_latex (l : RuleListing) :
    HasMarks l.latex.toList (l.rows.length * 2) := by
  have hbreak : HasMarks "\\\\\n".toList 0 := by decide +kernel
  have hbegin : HasMarks "\\[\\begin\x7barray\x7d\x7bcll\x7d".toList 0 := by decide +kernel
  have hend : HasMarks "\\end\x7barray\x7d\\]".toList 0 := by decide +kernel
  have hrows := forall₂_hasMarks_map (fun row : RuleRow => row.hasMarks_latex true) l.rows
  have hall := hbreak.intercalate (.cons hbegin (List.rel_append hrows (.cons hend .nil)))
  have hsum : (0 :: ((l.rows.map fun _ => 2) ++ [0])).sum = l.rows.length * 2 := by
    simp
  unfold latex
  rw [String.toList_intercalate, ← hsum]
  simp only [List.map_append, List.map_map, List.map_cons, List.map_nil]
  exact hall

/-- A table of sets has those of its rows, and those of the heading. -/
theorem SetsTable.hasMarks_latex (t : SetsTable) :
    HasMarks t.latex.toList ((t.rows.length + 1) * 3) := by
  have hbegin : HasMarks "\\begin\x7btabular\x7d\x7bc|c|c|c\x7d\n".toList 0 := by decide +kernel
  have hheading : HasMarks "Symbol & Nullable & First & Follow\\\\\\hline\n".toList 3 := by
    decide +kernel
  have hbreak : HasMarks "\\\\\n ".toList 0 := by decide +kernel
  have hend : HasMarks "\\\\\n\\end\x7btabular\x7d".toList 0 := by decide +kernel
  have hrows := hbreak.intercalate_map SetsRow.hasMarks_latex t.rows
  have hall := ((hbegin.append hheading).append hrows).append hend
  have hsum : 0 + 3 + t.rows.length * 3 + 0 = (t.rows.length + 1) * 3 := by omega
  unfold latex
  simp only [String.toList_append]
  exact hsum ▸ hall

/-- **Rows have the columns of their table**, whatever the names in them are. Names are escaped
character by character, and then the mark `ϵ` is replaced in what has come out. Written in this
way, a rule has two marks where the arrow has a column of its own and none elsewhere, and a rule
with its sets has three. So has the heading of a table of sets, and in neither table are there
other marks. -/
theorem columnMarks_latex :
    (∀ mode name, (escape mode name).toList = writeMark mode (escapeOthers name.toList))
      ∧ (∀ row : RuleRow, columnMarks (row.latex true) = 2 ∧ columnMarks (row.latex false) = 0)
      ∧ (∀ row : SetsRow, columnMarks row.latex = 3)
      ∧ (∀ l : RuleListing, columnMarks l.latex = l.rows.length * 2)
      ∧ ∀ t : SetsTable, columnMarks t.latex = (t.rows.length + 1) * 3 := by
  refine ⟨toList_escape, fun row => ⟨?_, ?_⟩, fun row => row.hasMarks_latex.count,
    fun l => l.hasMarks_latex.count, fun t => t.hasMarks_latex.count⟩
  · exact (row.hasMarks_latex true).count
  · exact (row.hasMarks_latex false).count

/-- Names that are ampersands and backslashes themselves. -/
example : columnMarks (SetsRow.latex ⟨"&", [], true, ["\\", "\\&"], ["&&", "ϵ"]⟩) = 3 := by
  decide +kernel

end GrammarWorkbench
