import GrammarWorkbench.CommandLine.Outcome

/-!
# The program

Gets the arguments and the grammar text, and prints what
`GrammarWorkbench.CommandLine` decides.
-/

namespace GrammarWorkbench.CommandLine

/-- The text that bytes spell. -/
def textOfBytes (bytes : ByteArray) : Except ReadFault String :=
  match String.fromUTF8? bytes with
  | some text => .ok text
  | none => .error .notText

/-- Reads the grammar text from where the options say. -/
def readSource (o : Options) : IO (Except ReadFault String) := do
  try
    let bytes ← match o.input? with
      | some path => IO.FS.readBinFile path
      | none => (← IO.getStdin).readBinToEnd
    return textOfBytes bytes
  catch
    | .noFileOrDirectory .. => return .error .notFound
    | e => return .error (.other (toString e))

/-- Carries out a request. -/
def Request.perform : Request → IO Outcome
  | .version => return versionOutcome
  | .help => return helpOutcome
  | .misuse => return misuseOutcome
  | .run o => return o.outcome (← readSource o)

end GrammarWorkbench.CommandLine

open GrammarWorkbench.CommandLine in
/-- Does what the arguments ask for. -/
def main (arguments : List String) : IO UInt32 := do
  let outcome ← (Request.ofCommandLine arguments).perform
  IO.print outcome.out
  IO.eprint outcome.err
  return outcome.code.toUInt32
