import AugmentedBnf.Classification
import AugmentedBnf.CommandLine.Session
import AugmentedBnf.Compilation
import AugmentedBnf.Grammar.Render
import AugmentedBnf.Main
import AugmentedBnf.Nfa.Reachable
import AugmentedBnf.Proofs.Classification.Lookup
import AugmentedBnf.Proofs.Classification.Passes
import AugmentedBnf.Proofs.Classification.Reachability
import AugmentedBnf.Proofs.Compilation.BranchOrder
import AugmentedBnf.Proofs.Compilation.CountModes
import AugmentedBnf.Proofs.Compilation.Dependence
import AugmentedBnf.Proofs.Compilation.Emission
import AugmentedBnf.Proofs.Compilation.Exactness
import AugmentedBnf.Proofs.Compilation.Faults
import AugmentedBnf.Proofs.Compilation.Language
import AugmentedBnf.Proofs.Compilation.RepeatLimit
import AugmentedBnf.Proofs.Compilation.Size
import AugmentedBnf.Proofs.Compilation.Termination
import AugmentedBnf.Proofs.Compilation.Trim
import AugmentedBnf.Proofs.Compilation.Undefined
import AugmentedBnf.Proofs.Compilation.Unfolding
import AugmentedBnf.Proofs.Grammar.Grouping
import AugmentedBnf.Proofs.Grammar.RoundTrip
import AugmentedBnf.Proofs.Nfa.EdgeTable
import AugmentedBnf.Proofs.Nfa.Traversal
import AugmentedBnf.Proofs.Reader.ErrorReport
import AugmentedBnf.Proofs.Reader.FirstUnexpected
import AugmentedBnf.Proofs.Reader.LineEndings
import AugmentedBnf.Proofs.Reader.Progress
import AugmentedBnf.Radix
import AugmentedBnf.Reader.Stream
