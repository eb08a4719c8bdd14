import GrammarWorkbench.FirstFollow.Analysis
import GrammarWorkbench.Report.RuleListing

/-!
# Tables of FIRST and FOLLOW sets

One row for each rule: its alternatives, whether it can vanish, and its two sets.
Sets are shown by the names of their symbols, in the order of the names and each
name once; that is not the order of symbols, and two symbols with one name, such
as the end mark and the terminal `$`, show as one.
-/

namespace GrammarWorkbench

/-- **A rule with its sets, as it is shown.** -/
structure SetsRow where
  /-- The left side. -/
  name : String
  /-- The printed forms of the alternatives. -/
  productions : List String
  /-- Whether the rule can vanish. -/
  nullable : Bool
  /-- The names in its FIRST set. -/
  first : List String
  /-- The names in its FOLLOW set. -/
  follow : List String
deriving DecidableEq

namespace SetsRow

/-- The names of a set in LaTeX, a space command between names. -/
def latexNames (names : List String) : String :=
  String.intercalate "\\ " (names.map (Text.Latex.escape .text))

/-- **The row in LaTeX**, in four columns. -/
def latex (r : SetsRow) : String :=
  Text.Latex.escape .text r.name ++ " & " ++ Text.Json.bool r.nullable ++ " & "
    ++ latexNames r.first ++ " & " ++ latexNames r.follow

/-- The row in JSON. -/
def json (r : SetsRow) : String :=
  Text.Json.object
    [("name", Text.Json.string r.name), ("productions", Text.Json.strings r.productions),
      ("nullable", Text.Json.bool r.nullable), ("first", Text.Json.strings r.first),
      ("follow", Text.Json.strings r.follow)]

/-- The line of the alternatives. -/
def productionsLine (r : SetsRow) : String :=
  r.name ++ " -> " ++ String.intercalate " | " r.productions

/-- The line of a set, of which `kind` is the name. -/
def setLine (kind name : String) (names : List String) : String :=
  kind ++ "(" ++ name ++ ") = \x7b " ++ String.intercalate ", " names ++ " \x7d"

end SetsRow

/-- **A grammar with its sets, as it is shown.** -/
structure SetsTable where
  /-- One row for each rule, in the order of the rules. -/
  rows : List SetsRow
deriving DecidableEq

namespace SetsTable

/-- Three blocks of lines: alternatives, FIRST sets, FOLLOW sets. -/
def plain (t : SetsTable) : String :=
  String.intercalate "\n"
    (["Productions:"] ++ t.rows.map SetsRow.productionsLine
      ++ ["", "FIRST sets:"] ++ t.rows.map (fun r => SetsRow.setLine "FIRST" r.name r.first)
      ++ ["", "FOLLOW sets:"] ++ t.rows.map (fun r => SetsRow.setLine "FOLLOW" r.name r.follow))

/-- A table with a heading and one row for each rule. -/
def latex (t : SetsTable) : String :=
  "\\begin\x7btabular\x7d\x7bc|c|c|c\x7d\n" ++ "Symbol & Nullable & First & Follow\\\\\\hline\n"
    ++ String.intercalate "\\\\\n " (t.rows.map SetsRow.latex) ++ "\\\\\n\\end\x7btabular\x7d"

/-- One object that holds the rows. -/
def json (t : SetsTable) : String :=
  Text.Json.object [("data", Text.Json.array (t.rows.map SetsRow.json))]

/-- The table in a given form. -/
def render (t : SetsTable) : Format → String
  | .plain => t.plain
  | .latex => t.latex
  | .json => t.json

end SetsTable

/-- **The names of the symbols of a set**, in the order of the names and each
once. -/
def SymbolSet.shownNames (s : SymbolSet) : List String :=
  (SortedSet.ofList (s.toList.map Symbol.name)).toList

/-- **The table of a grammar and given sets.** The sets may be those of another
grammar; a rule without sets shows empty ones. -/
def Grammar.setsTable (g : Grammar) (sets : FirstFollow) : SetsTable :=
  ⟨g.rules.entries.map fun rule =>
    { name := rule.1
      productions := rule.2.map Production.display
      nullable := sets.isNullable rule.1
      first := SymbolSet.shownNames (sets.first.setAt rule.1)
      follow := SymbolSet.shownNames (sets.follow.setAt rule.1) }⟩

end GrammarWorkbench
