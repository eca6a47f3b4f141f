import RowTyping.Main
import RowTyping.Proofs.Check.Accounting
import RowTyping.Proofs.Check.Closed
import RowTyping.Proofs.Check.Globals
import RowTyping.Proofs.Check.Grouping
import RowTyping.Proofs.Check.Implementations
import RowTyping.Proofs.Check.Order
import RowTyping.Proofs.Check.Kinds
import RowTyping.Proofs.Check.Requirements
import RowTyping.Proofs.Check.Resolvable
import RowTyping.Proofs.Check.Sharing
import RowTyping.Proofs.Check.Termination
import RowTyping.Proofs.Composition
import RowTyping.Proofs.Coverage.Correctness
import RowTyping.Proofs.Coverage.Termination
import RowTyping.Proofs.Display.Distinct
import RowTyping.Proofs.Infer.Correctness
import RowTyping.Proofs.Infer.Joins
import RowTyping.Proofs.Infer.Residuals
import RowTyping.Proofs.Infer.SortedRows
import RowTyping.Proofs.Infer.Tracing
import RowTyping.Proofs.Interleaving
import RowTyping.Proofs.Lockstep.Component
import RowTyping.Proofs.Lockstep.Signature
import RowTyping.Proofs.Syntax.Loading
import RowTyping.Proofs.Unify.Correctness
import RowTyping.Proofs.Unify.Sequence
import RowTyping.Proofs.Unify.Symmetry
import RowTyping.Proofs.Unify.Termination
import RowTyping.Proofs.Workload.Modules
import RowTyping.Proofs.Workload.UnifyPair
import RowTyping.Syntax.Encode
import RowTyping.Workload
import RowTyping.Proofs.Lockstep.Declared
