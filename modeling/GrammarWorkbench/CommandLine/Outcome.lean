import GrammarWorkbench.CommandLine.Options
import GrammarWorkbench.Grammar.Reader
import GrammarWorkbench.LeftFactoring
import GrammarWorkbench.LeftRecursion
import GrammarWorkbench.Report.SetsTable

/-!
# What the program does

A run takes the options and the grammar text, or the reason why there is none, and
says what is printed and how the program exits. All transformations of one run
take their names from one supply. Outputs are printed in order until one fails;
what was printed before stays printed.
-/

namespace GrammarWorkbench.CommandLine

/-- **What a run leaves behind.** -/
structure Outcome where
  /-- The exit code. -/
  code : Nat
  /-- What is printed. -/
  out : String
  /-- What is said about a failure. -/
  err : String
deriving DecidableEq

/-! ## Getting the text -/

/-- Why a text could not be read. -/
inductive ReadFault where
  /-- There is no such file. -/
  | notFound
  /-- The bytes are not a text in UTF-8. -/
  | notText
  /-- Any other reason. -/
  | other (description : String)
deriving DecidableEq

/-- The wording of a reason. -/
def ReadFault.message : ReadFault → String
  | notFound => "No such file or directory (os error 2)"
  | notText => "stream did not contain valid UTF-8"
  | other description => description

namespace Options

/-- Where the grammar text comes from, in words. -/
def sourceName (o : Options) : String := o.input?.getD "stdin"

/-! ## Running -/

/-- A run that fails. -/
def failure (message : String) : Outcome := ⟨1, "", "Error: " ++ message ++ "\n"⟩

/-- **Applies transformations in order**, with one supply of names for all. -/
def transform : List Action → Grammar → NameAllocator → Except GrammarError Grammar
  | [], g, _ => .ok g
  | .eliminateLeftRecursion :: rest, g, names =>
    match g.eliminateLeftRecursionWith names with
    | .error e => .error e
    | .ok done => transform rest done.grammar done.names
  | .leftFactor :: rest, g, names =>
    let done := g.leftFactorWith names
    transform rest done.grammar done.names

/-- Transformations that begin with an elimination go on from what it ends with. -/
theorem transform_eliminate (actions : List Action) (g : Grammar) (names : NameAllocator) :
    transform (.eliminateLeftRecursion :: actions) g names
      = (g.eliminateLeftRecursionWith names).bind fun done =>
          transform actions done.grammar done.names := by
  -- the outcome of the elimination gets a name first, so that nothing tries to compute it
  have hcases : ∀ outcome : Except GrammarError Elimination,
      (match outcome with
        | .error e => Except.error e
        | .ok done => transform actions done.grammar done.names)
      = outcome.bind fun done => transform actions done.grammar done.names := by
    intro outcome
    cases outcome <;> rfl
  exact hcases _

/-- If they succeed, so does the elimination. -/
theorem exists_of_transform {actions : List Action} {g after : Grammar} {names : NameAllocator}
    (h : transform (.eliminateLeftRecursion :: actions) g names = .ok after) :
    ∃ done, g.eliminateLeftRecursionWith names = .ok done
      ∧ transform actions done.grammar done.names = .ok after := by
  rw [transform_eliminate] at h
  generalize g.eliminateLeftRecursionWith names = outcome at h ⊢
  cases outcome with
  | error e => exact absurd h (by simp [Except.bind])
  | ok done => exact ⟨done, rfl, h⟩

/-- The text of one output. -/
def report (o : Options) (g : Grammar) : Output → Except GrammarError String
  | .rules => .ok (g.ruleListing.render o.format)
  | .sets =>
    match g.firstFollowWithin o.maxFollowPasses with
    | .error e => .error e
    | .ok sets => .ok ((g.setsTable sets).render o.format)

/-- **Prints outputs in order, each on lines of its own, until one fails.** -/
def print (o : Options) (g : Grammar) : List Output → Outcome
  | [] => ⟨0, "", ""⟩
  | out :: rest =>
    match o.report g out with
    | .error e => failure e.message
    | .ok text =>
      let later := o.print g rest
      { later with out := text ++ "\n" ++ later.out }

/-- What happens once there is a grammar text. -/
def outcomeOfText (o : Options) (text : String) : Outcome :=
  match Grammar.parseWith (Tokenizer.declaring o.terminals) text with
  | .error e => failure e.message
  | .ok g =>
    match transform o.actions g NameAllocator.initial with
    | .error e => failure e.message
    | .ok g => o.print g o.outputs

/-- **What happens, given the grammar text or why there is none.** -/
def outcome (o : Options) (source : Except ReadFault String) : Outcome :=
  match source with
  | .error fault => failure ("Failed to read " ++ o.sourceName ++ ": " ++ fault.message)
  | .ok text => o.outcomeOfText text

end Options

/-! ## Requests that read nothing -/

/-- The name and the number of this version. -/
def versionText : String := "grammar-craft 0.1.0\n"

/-- How to use the program. -/
def usageText : String :=
  "Usage: grammar-craft [OPTIONS] <OUTPUTS>...\n\n"
    ++ "Outputs:\n"
    ++ "  prod                         the rules\n"
    ++ "  ff                           the FIRST and FOLLOW sets\n\n"
    ++ "Options:\n"
    ++ "  -a, --action <ACTION>        elr or lf, applied in order before printing\n"
    ++ "  -f, --format <FORMAT>        plain, latex or json\n"
    ++ "  -t, --terminals <TERMINALS>  terminals of several characters, between commas\n"
    ++ "      --max-follow-passes <N>  passes allowed for FOLLOW sets\n"
    ++ "  -i, --input <FILE>           the file that holds the grammar\n"
    ++ "  -h, --help                   show this text\n"
    ++ "  -V, --version                show the version\n"

/-- What follows from showing the version. -/
def versionOutcome : Outcome := ⟨0, versionText, ""⟩

/-- What follows from showing how to use the program. -/
def helpOutcome : Outcome := ⟨0, usageText, ""⟩

/-- What follows from arguments that break the rules. -/
def misuseOutcome : Outcome := ⟨2, "", usageText⟩

end GrammarWorkbench.CommandLine
