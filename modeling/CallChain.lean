import CallChain.Program
import CallChain.Proofs.ArgumentLists
import CallChain.Proofs.Assignments
import CallChain.Proofs.BalancedGrammar
import CallChain.Proofs.Bindings
import CallChain.Proofs.BlockMarks
import CallChain.Proofs.Blocks
import CallChain.Proofs.BracketFaults
import CallChain.Proofs.CallTree
import CallChain.Proofs.Chains
import CallChain.Proofs.Comments
import CallChain.Proofs.Defaults
import CallChain.Proofs.Descent
import CallChain.Proofs.FailFast
import CallChain.Proofs.Grouping
import CallChain.Proofs.Indentation
import CallChain.Proofs.Junctions
import CallChain.Proofs.LineBalance
import CallChain.Proofs.Literals
import CallChain.Proofs.Operators
import CallChain.Proofs.Passthrough
import CallChain.Proofs.Placeholders
import CallChain.Proofs.Ranges
import CallChain.Proofs.References
import CallChain.Proofs.SlicedCalls
import CallChain.Proofs.SlicedPrograms
import CallChain.Proofs.SlicedValues
import CallChain.Proofs.Spans
import CallChain.Proofs.Strictness
import CallChain.Proofs.StringContents
import CallChain.Proofs.Targets
import CallChain.Proofs.Templates
import CallChain.Proofs.TypeFaults
import CallChain.Proofs.WellFormed
import CallChain.Proofs.WrittenLines
import CallChain.Settings.File
