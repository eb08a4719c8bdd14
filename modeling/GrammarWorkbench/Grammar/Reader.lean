import GrammarWorkbench.Error
import GrammarWorkbench.Event
import GrammarWorkbench.Grammar.Basic
import GrammarWorkbench.Table.Grouping
import GrammarWorkbench.Tokenizer

/-!
# Reading grammar text

A grammar is written one rule a line, `A->x|y`: a capital, an arrow, and
alternatives between bars. Blank lines and lines that say `END` are passed over.
Lines of one left side add up, in the order of the text.

Reading has two phases. First every line is taken apart, and the first bad one is
blamed. Only then are the alternatives tokenized, because a capital is a
non-terminal if it is a left side anywhere in the text, also further down. No
fault can arise in the second phase, so whether a text is accepted does not
depend on the tokenizer.
-/

namespace GrammarWorkbench

/-! ## Lines -/

/-- **A line that states a rule.** -/
structure RuleLine where
  /-- The capital before the arrow. -/
  left : Char
  /-- The texts between the bars, trimmed, none empty. -/
  pieces : List String
deriving DecidableEq

namespace RuleLine

/-- The word that may stand on a line of its own to close the text. -/
def endKeyword : String := "END"

/-- Whether a trimmed line states nothing: it is empty, or the closing word in
capitals or small letters. -/
def isSkipped (line : List Char) : Bool :=
  line.isEmpty || line.map Char.toUpper == endKeyword.toList

/-- The texts before and after the first arrow. -/
def cutArrow? : List Char → Option (List Char × List Char)
  | [] => none
  | '-' :: '>' :: cs => some ([], cs)
  | c :: cs => (cutArrow? cs).map fun cut => (c :: cut.1, cut.2)

/-- The name of a rule, if the text is a single capital. -/
def capital? : List Char → Option Char
  | [c] => if c.isUpper then some c else none
  | _ => none

/-- The texts between the bars, trimmed. -/
def cutBars (right : List Char) : List (List Char) := (right.splitOn '|').map Text.trim

/-- **The rule that a trimmed line states.** A missing arrow is noticed before a
wrong left side, and that before an empty alternative. -/
def ofLine (line : List Char) : Except LineFault RuleLine :=
  match cutArrow? line with
  | none => .error (.missingArrow (String.ofList line))
  | some (left, right) =>
    match capital? (Text.trim left) with
    | none => .error (.badLeftSide (String.ofList (Text.trim left)))
    | some c =>
      if (cutBars right).any List.isEmpty then
        .error (.emptyAlternative (String.ofList line))
      else .ok ⟨c, (cutBars right).map String.ofList⟩

/-- The left side as a name. -/
def name (r : RuleLine) : String := String.singleton r.left

/-- The rules that lines state, the first of the lines having number `n`; or the
fault of the first bad line. -/
def ofLines (n : Nat) : List (List Char) → Except GrammarError (List RuleLine)
  | [] => .ok []
  | line :: lines =>
    if isSkipped (Text.trim line) then ofLines (n + 1) lines
    else
      match ofLine (Text.trim line) with
      | .error fault => .error (.badLine n fault)
      | .ok rule => (ofLines (n + 1) lines).map (rule :: ·)

/-- **The rules that a text states**, or the fault of its first bad line. -/
def ofText (text : String) : Except GrammarError (List RuleLine) :=
  ofLines 1 (text.toList.splitOn '\n')

/-- **The pieces of every left side**, in order of first appearance; lines of one left
side add up, in the order of the text. -/
def gather (rules : List RuleLine) : Table String (List String) :=
  (Table.group name rules).map fun lines => lines.flatMap pieces

theorem keys_gather (rules : List RuleLine) :
    (gather rules).keys = (rules.map RuleLine.name).eraseDups := by
  rw [gather, Table.keys_map, Table.keys_group]

theorem get?_gather (rules : List RuleLine) (name : String) :
    (gather rules).get? name
      = if name ∈ rules.map RuleLine.name
        then some ((rules.filter fun r => decide (r.name = name)).flatMap pieces) else none := by
  unfold gather
  rw [Table.get?_map, Table.get?_group]
  split <;> rfl

end RuleLine

/-! ## Grammars -/

namespace Grammar

/-- **The grammar of gathered pieces**: a capital is a non-terminal if it has
pieces, and the first left side is the start symbol. -/
def ofPieces (t : Tokenizer) (pieces : Table String (List String)) : Grammar where
  rules := pieces.map fun ps => ps.map (t.tokenize pieces.contains)
  start := pieces.keys.head?

/-- **Reads grammar text with a given tokenizer.** -/
def parseWith (t : Tokenizer) (text : String) : Except GrammarError Grammar :=
  (RuleLine.ofText text).map fun rules => ofPieces t (RuleLine.gather rules)

/-- Reads grammar text in which every terminal is a single character. -/
def parse (text : String) : Except GrammarError Grammar := parseWith Tokenizer.plain text

/-! ## What reading reports -/

/-- A capital that stands as a terminal. -/
def capitalTerminal? : Symbol → Option String
  | .terminal name => (RuleLine.capital? name.toList).map fun _ => name
  | _ => none

/-- The capitals that stand as terminals in some alternative, in alphabetical
order. -/
def capitalTerminals (g : Grammar) : SortedSet String :=
  SortedSet.ofList (g.alternatives.flatMap fun p => p.body.filterMap capitalTerminal?)

/-- **What is reported when `g` has been read**: each capital that stands as a
terminal, then the size and the start symbol. -/
def readEvents (g : Grammar) : List Event :=
  g.capitalTerminals.toList.map .capitalWithoutRule ++ [.grammarRead g.rules.size g.start]

end Grammar

end GrammarWorkbench
