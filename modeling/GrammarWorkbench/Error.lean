/-!
# What can go wrong

Grammar text is refused at its first bad line, with the number of that line and
what is wrong with it. The analyses and transformations that repeat passes or
rounds are given a ceiling and say so when they reach it.
-/

namespace GrammarWorkbench

/-- **What is wrong with a line of grammar text.** -/
inductive LineFault where
  /-- The line has no arrow. -/
  | missingArrow (text : String)
  /-- What stands before the arrow is not a single capital. -/
  | badLeftSide (lhs : String)
  /-- Nothing stands between two bars, or at an end of the right side. -/
  | emptyAlternative (text : String)
deriving DecidableEq

/-- **Why there is no result.** -/
inductive GrammarError where
  /-- A line of grammar text is not a rule; lines count from one. -/
  | badLine (line : Nat) (fault : LineFault)
  /-- FOLLOW sets still grew when the passes allowed were used up. -/
  | followUnsettled (passes : Nat)
  /-- Left recursion was still being eliminated when the rounds allowed were used
  up. -/
  | eliminationUnfinished (rounds : Nat)
deriving DecidableEq

/-- The wording of a fault. -/
def LineFault.message : LineFault → String
  | missingArrow text => "missing \"->\" in `" ++ text ++ "`"
  | badLeftSide lhs =>
    "left side must be a single uppercase letter (A-Z), found `" ++ lhs ++ "`"
  | emptyAlternative text => "empty alternative in `" ++ text ++ "`"

/-- The wording of an error. -/
def GrammarError.message : GrammarError → String
  | badLine line fault => "Line " ++ line.repr ++ ": " ++ fault.message
  | followUnsettled passes => "FOLLOW sets did not converge within " ++ passes.repr ++ " passes"
  | eliminationUnfinished rounds =>
    "Left recursion elimination did not end within " ++ rounds.repr ++ " rounds"

end GrammarWorkbench
