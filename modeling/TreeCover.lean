import TreeCover.CommandLine.Console
import TreeCover.Main
import TreeCover.Proofs.Allocation.Counting
import TreeCover.Proofs.Allocation.Interference
import TreeCover.Proofs.Allocation.Scan
import TreeCover.Proofs.Allocation.Valid
import TreeCover.Proofs.Assembly.IndexedCopies
import TreeCover.Proofs.Assembly.Linearize
import TreeCover.Proofs.Assembly.Mirror
import TreeCover.Proofs.Assembly.Operands
import TreeCover.Proofs.Assembly.Placeable
import TreeCover.Proofs.Assembly.Templates
import TreeCover.Proofs.Assembly.UnindexedCopies
import TreeCover.Proofs.Convention.Compiled
import TreeCover.Proofs.Encoding.Compiled
import TreeCover.Proofs.Forest.Attach
import TreeCover.Proofs.Forest.Declared
import TreeCover.Proofs.Forest.Progress
import TreeCover.Proofs.Independence.Modules
import TreeCover.Proofs.Ir.Dominance
import TreeCover.Proofs.Liveness.Build
import TreeCover.Proofs.Liveness.Changes
import TreeCover.Proofs.Liveness.Definedness
import TreeCover.Proofs.Liveness.History
import TreeCover.Proofs.Tiling.Actions
import TreeCover.Proofs.Tiling.Conservation
import TreeCover.Proofs.Tiling.Extensions
import TreeCover.Proofs.Tiling.Leaves
import TreeCover.Proofs.Tiling.Reads
import TreeCover.Proofs.Tiling.ReduceStep
import TreeCover.Proofs.Tiling.Reduction
import TreeCover.Proofs.Tiling.Derivations
import TreeCover.Proofs.Reading.Roundtrip
import TreeCover.Proofs.Labels.Sessions
import TreeCover.Proofs.Costs.Optimal
import TreeCover.Proofs.Covering.Actions
import TreeCover.Proofs.Covering.Emission
import TreeCover.Proofs.Covering.Constants
import TreeCover.Proofs.Costs.Ties
import TreeCover.Proofs.Allocation.Optimal
import TreeCover.Proofs.Forest.Accesses
import TreeCover.Proofs.Forest.Doubles
import TreeCover.Proofs.Forest.Resolved
import TreeCover.Proofs.Tiling.MemoryOrder
import TreeCover.Proofs.Tiling.PhiEdges
import TreeCover.Proofs.Tiling.SharedValues
import TreeCover.Proofs.Tiling.SingleAssignment
import TreeCover.Proofs.Tiling.Standing
import TreeCover.Proofs.Convention.FrameSlots
import TreeCover.Proofs.Flow.Finishing
import TreeCover.Proofs.Flow.LoopEnds
import TreeCover.Proofs.Tiling.Preservation
