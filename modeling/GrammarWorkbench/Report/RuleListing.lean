import GrammarWorkbench.Grammar.Basic
import GrammarWorkbench.Text.Json
import GrammarWorkbench.Text.Latex

/-!
# Listings of rules

A grammar is shown one rule a row, in three forms: as plain text, which can be read
back as grammar text; as a LaTeX array with the left side, the arrow and the
alternatives in columns; and as JSON with every symbol by itself.
-/

namespace GrammarWorkbench

/-- The forms in which reports are written. -/
inductive Format where
  /-- Plain text. -/
  | plain
  /-- A LaTeX table. -/
  | latex
  /-- JSON. -/
  | json
deriving DecidableEq

/-- **A rule as it is shown**: names only, one list for each alternative. -/
structure RuleRow where
  /-- The left side. -/
  left : String
  /-- The names of the symbols of each alternative. -/
  rights : List (List String)
deriving DecidableEq

namespace RuleRow

/-- The row as plain text, names of one alternative without blanks between. -/
def plain (r : RuleRow) : String :=
  r.left ++ " -> " ++ String.intercalate " | " (r.rights.map String.join)

/-- An alternative in LaTeX, a space command between names. -/
def latexRight (right : List String) : String :=
  String.intercalate " \\ " (right.map (Text.Latex.escape .math))

/-- **The row in LaTeX.** With `aligned` the arrow stands in a column of its own. -/
def latex (r : RuleRow) (aligned : Bool) : String :=
  Text.Latex.escape .math r.left ++ (if aligned then " & \\rightarrow &" else " \\rightarrow ")
    ++ String.intercalate " \\mid " (r.rights.map latexRight)

/-- The row in JSON. -/
def json (r : RuleRow) : String :=
  Text.Json.object
    [("left", Text.Json.string r.left),
      ("rights", Text.Json.array (r.rights.map Text.Json.strings))]

end RuleRow

/-- **A grammar as it is shown.** -/
structure RuleListing where
  /-- One row for each rule, in the order of the rules. -/
  rows : List RuleRow
deriving DecidableEq

namespace RuleListing

/-- One line for each rule. -/
def plain (l : RuleListing) : String := String.intercalate "\n" (l.rows.map RuleRow.plain)

/-- An array in a displayed formula. -/
def latex (l : RuleListing) : String :=
  String.intercalate "\\\\\n"
    (["\\[\\begin\x7barray\x7d\x7bcll\x7d"] ++ l.rows.map (fun r => r.latex true)
      ++ ["\\end\x7barray\x7d\\]"])

/-- One object that holds the rows. -/
def json (l : RuleListing) : String :=
  Text.Json.object [("productions", Text.Json.array (l.rows.map RuleRow.json))]

/-- The listing in a given form. -/
def render (l : RuleListing) : Format → String
  | .plain => l.plain
  | .latex => l.latex
  | .json => l.json

end RuleListing

/-- **The listing of a grammar**; an empty alternative shows as `ϵ`. -/
def Grammar.ruleListing (g : Grammar) : RuleListing :=
  ⟨g.rules.entries.map fun rule => ⟨rule.1, rule.2.map fun p => p.symbols.map Symbol.name⟩⟩

end GrammarWorkbench
