import BlockMachine.Machine.Run
import BlockMachine.Translation.Program
import BlockMachine.Proofs.Machine.Reachability
import BlockMachine.Proofs.Machine.Faults
import BlockMachine.Proofs.Memory.Liveness
import BlockMachine.Proofs.Memory.Scopes
import BlockMachine.Proofs.Memory.Ownership
import BlockMachine.Proofs.Machine.Horizon
import BlockMachine.Proofs.Memory.Dangling
import BlockMachine.Proofs.Closures.Renaming
import BlockMachine.Proofs.Closures.Coverage
import BlockMachine.Proofs.Closures.Lockstep
import BlockMachine.Proofs.Closures.Truncation
import BlockMachine.Proofs.Surface.Evaluation
import BlockMachine.Proofs.Translation.Growth
import BlockMachine.Proofs.Translation.Layout
import BlockMachine.Proofs.Correctness.Agreement
import BlockMachine.Proofs.Machine.Execution
import BlockMachine.Proofs.Correctness.Following
import BlockMachine.Proofs.Correctness.Expressions
import BlockMachine.Proofs.Correctness.Declarations
import BlockMachine.Proofs.Correctness.Commands
import BlockMachine.Proofs.Correctness.Program
import BlockMachine.Proofs.Machine.Markers
import BlockMachine.Proofs.Surface.Phrases
import BlockMachine.Proofs.Translation.Occurrences
import BlockMachine.Proofs.Machine.Budget
import BlockMachine.Proofs.Surface.Faults
import BlockMachine.Proofs.Correctness.Faults
import BlockMachine.Proofs.Scoping.Frames
import BlockMachine.Proofs.Machine.Strides
import BlockMachine.Proofs.Scoping.Neutrality
import BlockMachine.Proofs.Scoping.Closures
import BlockMachine.Proofs.Scoping.Continuations
import BlockMachine.Proofs.Machine.Lookups
import BlockMachine.Proofs.Scoping.Lexical
import BlockMachine.Proofs.Scoping.Environments
import BlockMachine.Proofs.Closures.Provenance
import BlockMachine.Proofs.Closures.Groups
import BlockMachine.Proofs.Expressions.Evaluation
import BlockMachine.Proofs.Expressions.Runs
import BlockMachine.Proofs.Expressions.Kinds
import BlockMachine.Proofs.Translation.Tiling
import BlockMachine.Proofs.Translation.WellFormed
import BlockMachine.Proofs.Translation.Tree
import BlockMachine.Proofs.Translation.Readback
import BlockMachine.Proofs.Translation.Acceptance
import BlockMachine.Proofs.Correctness.Termination
import BlockMachine.Proofs.Machine.Parallel
import BlockMachine.Proofs.Identifiers.Equality
import BlockMachine.Proofs.Machine.Residue
import BlockMachine.Proofs.Machine.Drivers
import BlockMachine.Proofs.Expressions.Timing
import BlockMachine.Proofs.Memory.Addresses
import BlockMachine.Proofs.Expressions.Reading
import BlockMachine.Proofs.Declarations.Completion
import BlockMachine.Proofs.Declarations.Places
import BlockMachine.Proofs.Declarations.Making
import BlockMachine.Proofs.Declarations.Runs
import BlockMachine.Proofs.Declarations.Simultaneous
import BlockMachine.Proofs.Identifiers.Interning
import BlockMachine.Proofs.Surface.Traversal
import BlockMachine.Proofs.Translation.Naming
import BlockMachine.Proofs.Machine.Persistence
import BlockMachine.Proofs.Memory.Histories
import BlockMachine.Proofs.Output.Lines
import BlockMachine.Proofs.Output.Display
import BlockMachine.Proofs.Output.Capture
import BlockMachine.Proofs.Code.Handles
import BlockMachine.Proofs.Closures.Marks
import BlockMachine.Proofs.Scoping.Histories
