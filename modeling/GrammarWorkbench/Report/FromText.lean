import GrammarWorkbench.Grammar.Reader
import GrammarWorkbench.LeftFactoring
import GrammarWorkbench.LeftRecursion
import GrammarWorkbench.Report.SetsTable

/-!
# From grammar text to a report

Three questions that take grammar text, in which every terminal is a single
character, and answer with a text. Whatever goes wrong is part of the answer.
-/

namespace GrammarWorkbench

/-- An error as it is reported in JSON. -/
def GrammarError.json (e : GrammarError) : String :=
  Text.Json.object [("error", Text.Json.string e.message)]

/-- An error as it is reported in plain text. -/
def GrammarError.plain (e : GrammarError) : String := "Error: " ++ e.message

/-- **FIRST and FOLLOW sets of a grammar text, in JSON.** -/
def firstFollowJson (text : String) : String :=
  match Grammar.parse text with
  | .error e => e.json
  | .ok g =>
    match g.firstFollow with
    | .error e => e.json
    | .ok sets => (g.setsTable sets).json

/-- **A grammar text without left recursion**, in plain text. -/
def leftRecursionFreeText (text : String) : String :=
  match Grammar.parse text with
  | .error e => e.plain
  | .ok g =>
    match g.eliminateLeftRecursion with
    | .error e => e.plain
    | .ok done => done.grammar.ruleListing.plain

/-- **A grammar text left-factored**, in plain text. -/
def leftFactoredText (text : String) : String :=
  match Grammar.parse text with
  | .error e => e.plain
  | .ok g => g.leftFactor.grammar.ruleListing.plain

end GrammarWorkbench
