import ValueTrace.Bytecode.Assembler
import ValueTrace.Library.Reader
import ValueTrace.Program
import ValueTrace.Proofs.Visibility.PlainSearch
import ValueTrace.Proofs.Visibility.SourceChoice
import ValueTrace.Proofs.Visibility.MemoizedSearch
import ValueTrace.Proofs.Visibility.SearchDepth
import ValueTrace.Proofs.Visibility.Queries
import ValueTrace.Proofs.Visibility.Circles
import ValueTrace.Proofs.Graph.Growth
import ValueTrace.Proofs.Visibility.Locality
import ValueTrace.Proofs.Graph.WellFormed
import ValueTrace.Proofs.Graph.NewVariables
import ValueTrace.Proofs.Machine.Steps
import ValueTrace.Proofs.Visibility.Regions
import ValueTrace.Proofs.Machine.Frames
import ValueTrace.Proofs.Machine.Attributes
import ValueTrace.Proofs.Visibility.Markers
import ValueTrace.Proofs.Paths.Conditions
import ValueTrace.Proofs.Visibility.Elsewhere
import ValueTrace.Proofs.Graph.Merging
import ValueTrace.Proofs.Paths.Joins
import ValueTrace.Proofs.Paths.Jumps
import ValueTrace.Proofs.Paths.Siblings
import ValueTrace.Proofs.Paths.Loops
import ValueTrace.Proofs.Paths.Refinement
import ValueTrace.Proofs.Safety.Library
import ValueTrace.Proofs.Safety.Readable
import ValueTrace.Proofs.Safety.Layout
import ValueTrace.Proofs.Safety.Runs
import ValueTrace.Proofs.Safety.Values
import ValueTrace.Proofs.Safety.Lookups
import ValueTrace.Proofs.Safety.Paths
import ValueTrace.Proofs.Safety.Instructions
import ValueTrace.Proofs.Safety.Steps
import ValueTrace.Proofs.Safety.Frames
import ValueTrace.Proofs.Safety.Calls
import ValueTrace.Proofs.Safety.Routes
import ValueTrace.Proofs.Safety.Programs
import ValueTrace.Proofs.Safety.SelfCalls
import ValueTrace.Proofs.Safety.Faults
import ValueTrace.Proofs.Safety.Nesting
import ValueTrace.Proofs.Safety.Points
import ValueTrace.Proofs.Safety.Limits
import ValueTrace.Proofs.References.Soundness
import ValueTrace.Proofs.Absorption.Variables
import ValueTrace.Proofs.Absorption.Operations
import ValueTrace.Proofs.Absorption.Sentinels
import ValueTrace.Proofs.Graph.AppendOnly
import ValueTrace.Proofs.Machine.Operands
import ValueTrace.Proofs.Flow.Reached
import ValueTrace.Proofs.Literals.Loads
import ValueTrace.Proofs.Graph.Cost
import ValueTrace.Proofs.Visibility.Unconditional
import ValueTrace.Proofs.Visibility.Combinations
import ValueTrace.Proofs.Bytecode.RoundTrip
import ValueTrace.Proofs.Regions.Unwinding
import ValueTrace.Proofs.Regions.Cleanups
import ValueTrace.Proofs.Regions.Continuing
import ValueTrace.Proofs.Findings.Inheritance
import ValueTrace.Proofs.Signatures.TypeVariables
import ValueTrace.Proofs.Machine.Enlarging
import ValueTrace.Proofs.Calls.Binding
import ValueTrace.Proofs.Calls.Surplus
import ValueTrace.Proofs.Calls.Arguments
import ValueTrace.Proofs.Signatures.Matching
import ValueTrace.Proofs.Signatures.Views
import ValueTrace.Proofs.Signatures.Filling
import ValueTrace.Proofs.Signatures.Truthiness
import ValueTrace.Proofs.Signatures.Namesakes
import ValueTrace.Proofs.Graph.OneNode
import ValueTrace.Proofs.Assembly.Blocks
import ValueTrace.Proofs.Classes.Linearization
import ValueTrace.Proofs.Assembly.Operands
import ValueTrace.Proofs.Signatures.Notation
import ValueTrace.Proofs.Signatures.RoundTrip
import ValueTrace.Proofs.Calls.Insertions
import ValueTrace.Proofs.Bytecode.Parameters
import ValueTrace.Proofs.Findings.Transactions
import ValueTrace.Proofs.Flow.Restoring
import ValueTrace.Proofs.Library.Repetitions
import ValueTrace.Proofs.Calls.Separation
