import ThreeAddress.Body.Text
import ThreeAddress.Lowering.Method
import ThreeAddress.Proofs.Body.Coherence
import ThreeAddress.Proofs.Slots
import ThreeAddress.Proofs.Rewriting
import ThreeAddress.Proofs.Body.Edits
import ThreeAddress.Proofs.Body.Replacement
import ThreeAddress.Proofs.Candor
import ThreeAddress.Proofs.Readiness
import ThreeAddress.Proofs.Pass.Statements
import ThreeAddress.Proofs.Pass.CopyPropagation
import ThreeAddress.Proofs.Pass.Locals
import ThreeAddress.Proofs.Pass.Traps
import ThreeAddress.Proofs.Pass.Jumps
import ThreeAddress.Proofs.Pass.DeadCode
import ThreeAddress.Proofs.Pass.TemporaryFolding
import ThreeAddress.Proofs.Flow.Search
import ThreeAddress.Proofs.Lookup
import ThreeAddress.Proofs.Flow.Worklist
import ThreeAddress.Proofs.Flow.Steps
import ThreeAddress.Proofs.Flow.Solutions
import ThreeAddress.Proofs.Flow.Paths
import ThreeAddress.Proofs.Flow.Exactness
import ThreeAddress.Proofs.Pass.UnreachableUnits
import ThreeAddress.Proofs.Pass.StoredComparisons
import ThreeAddress.Proofs.Pass.ConstantBranches
import ThreeAddress.Proofs.ChangeFlag
import ThreeAddress.Proofs.Pipeline.Success
import ThreeAddress.Proofs.Pipeline.NormalForm
import ThreeAddress.Proofs.Interleaving
import ThreeAddress.Proofs.Lowering.History
import ThreeAddress.Proofs.Lowering.Stubs
import ThreeAddress.Proofs.Pass.Notes
import ThreeAddress.Proofs.Lowering.Independence
import ThreeAddress.Proofs.Body.Opening
import ThreeAddress.Proofs.Pass.Openings
import ThreeAddress.Proofs.Fragment.Merge
import ThreeAddress.Proofs.Fragment.Labels
import ThreeAddress.Proofs.Lowering.Bindings
import ThreeAddress.Proofs.Pass.Chains
import ThreeAddress.Proofs.Pipeline.Chains
import ThreeAddress.Proofs.Body.Tightness
import ThreeAddress.Proofs.Pass.Tightness
import ThreeAddress.Proofs.Pipeline.Tightness
import ThreeAddress.Proofs.Overloads
import ThreeAddress.Proofs.Body.History
import ThreeAddress.Proofs.Lowering.Verdicts
import ThreeAddress.Proofs.Flow.Stores
import ThreeAddress.Proofs.Pass.CopySources
import ThreeAddress.Proofs.Pass.LocalPacking
import ThreeAddress.Proofs.Pass.Dereferences
import ThreeAddress.Proofs.Body.Coverage
import ThreeAddress.Proofs.Body.Motion
import ThreeAddress.Proofs.Body.Removal
import ThreeAddress.Proofs.Body.Splicing
import ThreeAddress.Proofs.Pass.ConstantFlow
import ThreeAddress.Proofs.Flow.Execution
import ThreeAddress.Proofs.Pass.ComparisonExpansion
import ThreeAddress.Proofs.Pass.ComparisonSimulation
import ThreeAddress.Proofs.Pass.TrapDispatch
import ThreeAddress.Proofs.Pass.TrapNormalForm
import ThreeAddress.Proofs.Body.Skipping
import ThreeAddress.Proofs.Flow.Abridgement
import ThreeAddress.Proofs.Pass.DeadCodeSimulation
import ThreeAddress.Proofs.Pass.FoldedPairs
import ThreeAddress.Proofs.Pass.FoldingSimulation
import ThreeAddress.Proofs.Flow.Resolution
import ThreeAddress.Proofs.Pass.Skeleton
import ThreeAddress.Proofs.Flow.Reached
import ThreeAddress.Proofs.Pass.ReachedUnits
import ThreeAddress.Proofs.Pass.StrandedUnits
import ThreeAddress.Proofs.Body.Hollow
import ThreeAddress.Proofs.Body.Labelling
import ThreeAddress.Proofs.Pass.IdleUnits
import ThreeAddress.Proofs.Flow.Handover
import ThreeAddress.Proofs.Pass.WastedAllocations
import ThreeAddress.Proofs.Pass.BooleanConstants
import ThreeAddress.Proofs.Arithmetic
import ThreeAddress.Proofs.Pass.IdentityOperations
import ThreeAddress.Proofs.Pass.LocalNames
import ThreeAddress.Proofs.Comparisons
import ThreeAddress.Proofs.Conversions
