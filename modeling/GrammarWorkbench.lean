import GrammarWorkbench.Derivation
import GrammarWorkbench.Main
import GrammarWorkbench.Report.FromText
import GrammarWorkbench.Table.Grouping
import GrammarWorkbench.Proofs.Language
import GrammarWorkbench.Proofs.LeftRecursion.Language
import GrammarWorkbench.Proofs.LeftRecursion.Cycles
import GrammarWorkbench.Proofs.FirstFollow.Growth
import GrammarWorkbench.Proofs.FirstFollow.Sequence
import GrammarWorkbench.Proofs.FirstFollow.First
import GrammarWorkbench.Proofs.LeftFactoring.Step
import GrammarWorkbench.Proofs.LeftFactoring.Unfolding
import GrammarWorkbench.Proofs.LeftFactoring.Language
import GrammarWorkbench.Proofs.FirstFollow.Follow
import GrammarWorkbench.Proofs.LeftRecursion.EpsilonFree
import GrammarWorkbench.Proofs.LeftRecursion.Hidden
import GrammarWorkbench.Proofs.Reader.Lines
import GrammarWorkbench.Proofs.Reader.RoundTrip
import GrammarWorkbench.Proofs.FirstFollow.Passes
import GrammarWorkbench.Proofs.Reader.Printable
import GrammarWorkbench.Proofs.LeftFactoring.Sets
import GrammarWorkbench.Proofs.Tidy
import GrammarWorkbench.Proofs.Minting
import GrammarWorkbench.Proofs.Sequences
import GrammarWorkbench.Proofs.Fronts
import GrammarWorkbench.Proofs.LeftFactoring.Factored
import GrammarWorkbench.Proofs.LeftFactoring.Recursion
import GrammarWorkbench.Proofs.LeftRecursion.First
import GrammarWorkbench.Proofs.Supplies
import GrammarWorkbench.Proofs.LeftFactoring.Choices
import GrammarWorkbench.Proofs.LeftRecursion.Direct
import GrammarWorkbench.Proofs.Reader.Kinds
import GrammarWorkbench.Proofs.Reader.Format
import GrammarWorkbench.Proofs.Reader.Accumulation
import GrammarWorkbench.Proofs.Reader.LongestMatch
import GrammarWorkbench.Proofs.Sessions
import GrammarWorkbench.Proofs.Capture
import GrammarWorkbench.Proofs.StartSymbol
import GrammarWorkbench.Proofs.Reader.Warnings
import GrammarWorkbench.Proofs.Report.Columns
import GrammarWorkbench.Proofs.LeftFactoring.Beginnings
import GrammarWorkbench.Proofs.NormalForm
