import GrammarWorkbench.Symbol

/-!
# Names in LaTeX

Names are arbitrary texts, and in LaTeX many characters are commands. Each such
character is written as a command that prints it, so that a name can neither end a
column nor start a formula. Two hyphens in a row would print as a dash, so an
empty group is put between them. The mark `ϵ` prints as a formula, and how that is
written depends on whether the name stands inside a formula already.
-/

namespace GrammarWorkbench.Text.Latex

/-- Where a name stands. -/
inductive Mode where
  /-- Inside a formula. -/
  | math
  /-- Inside ordinary text. -/
  | text
deriving DecidableEq

/-- How the mark `ϵ` is written. -/
def Mode.epsilon : Mode → String
  | math => "\\epsilon"
  | text => "$\\epsilon$"

/-- A character as it is written in front of the character `next` of the same
name. -/
def escapeChar (mode : Mode) (c : Char) (next : Option Char) : String :=
  match c with
  | '&' => "\\&"
  | '%' => "\\%"
  | '$' => "\\$"
  | '#' => "\\#"
  | '_' => "\\_"
  | '\x7b' => "\\\x7b"
  | '\x7d' => "\\\x7d"
  | '[' => "\x7b[\x7d"
  | ']' => "\x7b]\x7d"
  | '~' => "\\textasciitilde\x7b\x7d"
  | '^' => "\\textasciicircum\x7b\x7d"
  | '<' => "\\textless\x7b\x7d"
  | '>' => "\\textgreater\x7b\x7d"
  | '!' => "!\x7b\x7d"
  | '\\' => "\\textbackslash\x7b\x7d"
  | '-' => if next = some '-' then "-\x7b\x7d" else "-"
  | 'ϵ' => mode.epsilon
  | c => String.singleton c

/-- The characters of a name as they are written. -/
def escapeChars (mode : Mode) : List Char → List Char
  | [] => []
  | c :: cs => (escapeChar mode c cs.head?).toList ++ escapeChars mode cs

/-- **A name as it is written.** -/
def escape (mode : Mode) (name : String) : String :=
  String.ofList (escapeChars mode name.toList)

end GrammarWorkbench.Text.Latex
