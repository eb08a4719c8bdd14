import GrammarWorkbench.Production

/-!
# What is reported on the way

Reading, analysing and transforming a grammar come with remarks: warnings about
what may surprise, notes on each change, and the number of passes an analysis
took. They are values, returned in order beside the result; whoever runs the
operation decides which levels to show.
-/

namespace GrammarWorkbench

/-- How much an event matters. -/
inductive Level where
  /-- The outcome may surprise. -/
  | warn
  /-- A change that was made. -/
  | debug
  /-- How the work went. -/
  | trace
deriving DecidableEq

/-- The name of a level as it is printed. -/
def Level.label : Level → String
  | warn => "WARN"
  | debug => "DEBUG"
  | trace => "TRACE"

/-- **Something worth reporting.** -/
inductive Event where
  /-- A capital letter stands as a terminal in the grammar read. -/
  | capitalWithoutRule (name : String)
  /-- Grammar text was read. -/
  | grammarRead (rules : Nat) (start : Option String)
  /-- A minted name can also be read inside existing alternatives. -/
  | ambiguousName (name : String)
  /-- The leading `inner` of alternatives of `left` were replaced; so many
  alternatives came out. -/
  | leadingSubstituted (inner left : String) (alternatives : Nat)
  /-- The direct left recursion of `left` moved to `helper`. -/
  | directRecursionEliminated (left helper : String)
  /-- So many alternatives of `left` begin with `common`; what follows it moved to
  `helper`. -/
  | factored (common : Production) (alternatives : Nat) (left helper : String)
  /-- The FIRST sets were final after so many passes. -/
  | firstSettled (passes : Nat)
  /-- The FOLLOW sets were final after so many passes. -/
  | followSettled (passes : Nat)
deriving DecidableEq

namespace Event

/-- How much each kind of event matters. -/
def level : Event → Level
  | capitalWithoutRule _ => .warn
  | grammarRead _ _ => .debug
  | ambiguousName _ => .warn
  | leadingSubstituted _ _ _ => .debug
  | directRecursionEliminated _ _ => .debug
  | factored _ _ _ _ => .debug
  | firstSettled _ => .trace
  | followSettled _ => .trace

/-- How an optional start symbol is shown. The names that reading produces are
single capitals, so they need no escapes between the quotes. -/
def showStart : Option String → String
  | none => "None"
  | some name => "Some(\"" ++ name ++ "\")"

/-- The wording of an event. -/
def message : Event → String
  | capitalWithoutRule name => "`" ++ name ++ "` has no rule, treating it as a terminal"
  | grammarRead rules start =>
    "parsed " ++ rules.repr ++ " non-terminals, start symbol " ++ showStart start
  | ambiguousName name =>
    "`" ++ name ++ "` also reads as existing symbols, output may be ambiguous"
  | leadingSubstituted inner left alternatives =>
    "substituted " ++ inner ++ " into " ++ left ++ ": " ++ alternatives.repr ++ " alternatives"
  | directRecursionEliminated left helper =>
    "eliminated direct left recursion on " ++ left ++ " via " ++ helper
  | factored common alternatives left helper =>
    "factored " ++ common.display ++ " out of " ++ alternatives.repr ++ " alternatives of "
      ++ left ++ " into " ++ helper
  | firstSettled passes => "FIRST sets settled after " ++ passes.repr ++ " passes"
  | followSettled passes => "FOLLOW sets settled after " ++ passes.repr ++ " passes"

end Event

/-- **A result together with the events on the way to it**, in order. -/
structure Reported (α : Type) where
  /-- The result. -/
  value : α
  /-- What was reported, first things first. -/
  events : List Event

end GrammarWorkbench
