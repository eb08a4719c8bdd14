import GrammarWorkbench.FirstFollow.Analysis
import GrammarWorkbench.Report.RuleListing

/-!
# Command line arguments

The arguments say what to print, which transformations to apply before, and how.
They are read from left to right, and the first thing that settles the matter
does: a violation of the rules below, or a request for the version or for help.

Options have a long and most of them a short name, `--format` and `-f`. The value
is part of the same argument, `--format=json`, `-f=json`, `-fjson`, or the next
argument, which then must not look like an option. After `--` no argument is an
option any more. Transformations and terminals may be given several times, all
other options once.
-/

namespace GrammarWorkbench.CommandLine

/-! ## What can be asked for -/

/-- A transformation of the grammar. -/
inductive Action where
  /-- Eliminate left recursion. -/
  | eliminateLeftRecursion
  /-- Factor common beginnings. -/
  | leftFactor
deriving DecidableEq

/-- Something to print. -/
inductive Output where
  /-- The rules. -/
  | rules
  /-- The FIRST and FOLLOW sets. -/
  | sets
deriving DecidableEq

/-- **What the arguments ask for.** -/
structure Options where
  /-- What to print, in order. -/
  outputs : List Output
  /-- What to apply before, in order. -/
  actions : List Action
  /-- The form of the output, if one was given. -/
  format? : Option Format
  /-- The terminals declared. -/
  terminals : List String
  /-- The passes allowed for FOLLOW, if a number was given. -/
  maxFollowPasses? : Option Nat
  /-- The file that holds the grammar, if one was given. -/
  input? : Option String
deriving DecidableEq

namespace Options

/-- Nothing asked for yet. -/
def initial : Options := ⟨[], [], none, [], none, none⟩

instance : Inhabited Options := ⟨initial⟩

/-- The form of the output: plain text, if no other is given. -/
def format (o : Options) : Format := o.format?.getD .plain

/-- The passes allowed for FOLLOW. -/
def maxFollowPasses (o : Options) : Nat := o.maxFollowPasses?.getD Grammar.followPassLimit

end Options

/-! ## Values -/

/-- The transformation with a given name. -/
def Action.ofText? (text : String) : Option Action :=
  if text = "elr" then some .eliminateLeftRecursion
  else if text = "lf" then some .leftFactor
  else none

/-- The output with a given name. -/
def Output.ofText? (text : String) : Option Output :=
  if text = "prod" then some .rules
  else if text = "ff" then some .sets
  else none

/-- The form with a given name. -/
def formatOfText? (text : String) : Option Format :=
  if text = "plain" then some .plain
  else if text = "latex" then some .latex
  else if text = "json" then some .json
  else none

/-- The greatest number that can be given, the greatest one of 64 bits. -/
def maxCount : Nat := 0xFFFFFFFFFFFFFFFF

/-- The number that decimal digits spell, at least one and not more than
`maxCount`. -/
def countOfDigits? (digits : List Char) : Option Nat :=
  let n := Nat.ofDigitChars 10 digits 0
  if !digits.isEmpty && digits.all Char.isDigit && n ≤ maxCount then some n else none

/-- The number that a text spells, with or without a plus sign. -/
def countOfText? (text : String) : Option Nat :=
  match text.toList with
  | '+' :: digits => countOfDigits? digits
  | digits => countOfDigits? digits

/-! ## Options -/

/-- An option that takes a value. -/
inductive OptionName where
  | action
  | format
  | terminals
  | maxFollowPasses
  | input
deriving DecidableEq

namespace OptionName

/-- The option with a given short name. -/
def ofShort? : Char → Option OptionName
  | 'a' => some .action
  | 'f' => some .format
  | 't' => some .terminals
  | 'i' => some .input
  | _ => none

/-- The option with a given long name. -/
def ofLong? (name : String) : Option OptionName :=
  if name = "action" then some .action
  else if name = "format" then some .format
  else if name = "terminals" then some .terminals
  else if name = "max-follow-passes" then some .maxFollowPasses
  else if name = "input" then some .input
  else none

end OptionName

namespace Options

/-- Adds something to print. -/
def addOutput? (o : Options) (text : String) : Option Options :=
  (Output.ofText? text).map fun out => { o with outputs := o.outputs ++ [out] }

/-- **Takes an option with its value.** Nothing comes out if the value is wrong, or
if the option was given before and may be given only once. -/
def accept? (o : Options) (name : OptionName) (value : String) : Option Options :=
  match name with
  | .action => (Action.ofText? value).map fun a => { o with actions := o.actions ++ [a] }
  | .format =>
    if o.format?.isSome then none
    else (formatOfText? value).map fun f => { o with format? := some f }
  | .terminals =>
    some { o with terminals := o.terminals ++ (value.toList.splitOn ',').map String.ofList }
  | .maxFollowPasses =>
    if o.maxFollowPasses?.isSome then none
    else (countOfText? value).map fun n => { o with maxFollowPasses? := some n }
  | .input =>
    if o.input?.isSome || value.isEmpty then none else some { o with input? := some value }

end Options

/-! ## Arguments -/

/-- **What an argument is by its looks.** -/
inductive Argument where
  /-- Not an option. -/
  | positional (text : String)
  /-- An option with its value. -/
  | attached (name : OptionName) (value : String)
  /-- An option whose value is the next argument. -/
  | awaiting (name : OptionName)
  /-- What ends the options. -/
  | separator
  /-- The request for the version. -/
  | version
  /-- The request for help. -/
  | help
  /-- Something that looks like an option and is none. -/
  | unknown

namespace Argument

/-- An argument with one hyphen, from what stands behind the hyphen. -/
def ofShort (c : Char) (rest : List Char) : Argument :=
  if c = 'V' then .version
  else if c = 'h' then .help
  else
    match OptionName.ofShort? c, rest with
    | none, _ => .unknown
    | some name, [] => .awaiting name
    | some name, '=' :: value => .attached name (String.ofList value)
    | some name, value => .attached name (String.ofList value)

/-- An argument with two hyphens, from its name and what stands behind the first
equals sign, if there is one. -/
def ofLong (name : String) (value? : Option String) : Argument :=
  match OptionName.ofLong? name, value? with
  | some o, none => .awaiting o
  | some o, some value => .attached o value
  | none, none => if name = "version" then .version else if name = "help" then .help else .unknown
  | none, some _ => .unknown

/-- The texts before and after the first equals sign, if there is one. -/
def cutEquals (text : List Char) : String × Option String :=
  (String.ofList (text.takeWhile (· ≠ '=')),
    match text.dropWhile (· ≠ '=') with
    | [] => none
    | _ :: value => some (String.ofList value))

/-- **Reads an argument by itself.** A single hyphen is not an option. -/
def ofText (text : String) : Argument :=
  match text.toList with
  | ['-', '-'] => .separator
  | '-' :: '-' :: rest => ofLong (cutEquals rest).1 (cutEquals rest).2
  | ['-'] => .positional text
  | '-' :: c :: rest => ofShort c rest
  | _ => .positional text

end Argument

/-! ## Requests -/

/-- **What a command line asks for as a whole.** -/
inductive Request where
  /-- Do what the options say. -/
  | run (options : Options)
  /-- Show the version. -/
  | version
  /-- Show how to use the program. -/
  | help
  /-- The arguments break the rules. -/
  | misuse

namespace Request

/-- The request of options that are complete: something has to be printed. -/
def ofOptions (o : Options) : Request := if o.outputs.isEmpty then .misuse else .run o

/-- Reads arguments none of which is an option. -/
def ofOutputs (o : Options) : List String → Request
  | [] => ofOptions o
  | text :: rest =>
    match o.addOutput? text with
    | none => .misuse
    | some o => ofOutputs o rest

/-- Reads arguments from left to right, `o` being what was asked for before. -/
def ofArguments (o : Options) : List String → Request
  | [] => ofOptions o
  | text :: rest =>
    match Argument.ofText text with
    | .version => .version
    | .help => .help
    | .unknown => .misuse
    | .separator => ofOutputs o rest
    | .positional text =>
      match o.addOutput? text with
      | none => .misuse
      | some o => ofArguments o rest
    | .attached name value =>
      match o.accept? name value with
      | none => .misuse
      | some o => ofArguments o rest
    | .awaiting name =>
      match rest with
      | [] => .misuse
      | value :: rest =>
        match Argument.ofText value with
        | .positional value =>
          match o.accept? name value with
          | none => .misuse
          | some o => ofArguments o rest
        | _ => .misuse

/-- **The request of a command line.** -/
def ofCommandLine (arguments : List String) : Request := ofArguments Options.initial arguments

end Request

end GrammarWorkbench.CommandLine
