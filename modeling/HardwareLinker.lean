import HardwareLinker.Text.Blank
import HardwareLinker.Text.Lines
import HardwareLinker.Digest
import HardwareLinker.Scalar
import HardwareLinker.NameMap
import HardwareLinker.Diagnostic.Basic
import HardwareLinker.Diagnostic.Sink
import HardwareLinker.Diagnostic.Console
import HardwareLinker.Connection.Record
import HardwareLinker.Graph.Edges
import HardwareLinker.Graph.Assembly
import HardwareLinker.Graph.Kept
import HardwareLinker.Graph.Review
import HardwareLinker.Graph.Dot
import HardwareLinker.Cut.Minimum
import HardwareLinker.Tree.Names
import HardwareLinker.Tree.Basic
import HardwareLinker.Tree.Build
import HardwareLinker.Tree.Report
import HardwareLinker.Settings
import HardwareLinker.Settings.Configuration
import HardwareLinker.Floorplan.Basic
import HardwareLinker.Constraint.File
import HardwareLinker.Floorplan.Elaboration
import HardwareLinker.Milp.LpText
import HardwareLinker.Milp.SolutionText
import HardwareLinker.Floorplan.Solve
import HardwareLinker.Floorplan.Hints
import HardwareLinker.Milp.Backend
import HardwareLinker.Tour.Annealing
import HardwareLinker.Snapshot.Store
import HardwareLinker.Workspace
import HardwareLinker.Command.Run
import HardwareLinker.Main
import HardwareLinker.Proofs.NameMap
import HardwareLinker.Proofs.Pairs
import HardwareLinker.Proofs.Graph.Table
import HardwareLinker.Proofs.Graph.Interface
import HardwareLinker.Proofs.Graph.Reachable
import HardwareLinker.Proofs.Graph.Partners
import HardwareLinker.Proofs.Graph.Conflicts
import HardwareLinker.Proofs.Graph.Kept
import HardwareLinker.Proofs.Graph.LinkTypes
import HardwareLinker.Proofs.Graph.Saturation
import HardwareLinker.Proofs.Traffic
import HardwareLinker.Proofs.Graph.Edges
import HardwareLinker.Proofs.Graph.Cache
import HardwareLinker.Proofs.Tree.Pairing
import HardwareLinker.Proofs.Tree.Assembled
import HardwareLinker.Proofs.Binary64
import HardwareLinker.Proofs.Cut.Arithmetic
import HardwareLinker.Proofs.Cut.Search
import HardwareLinker.Proofs.Cut.Labelling
import HardwareLinker.Proofs.Cut.Augmentation
import HardwareLinker.Proofs.Cut.Sides
import HardwareLinker.Proofs.Cut.Duality
import HardwareLinker.Proofs.Cut.Minimum
import HardwareLinker.Proofs.Tree.Names
import HardwareLinker.Proofs.Tree.Growth
import HardwareLinker.Proofs.Tree.Handles
import HardwareLinker.Proofs.Tree.Total
import HardwareLinker.Proofs.Tree.Links
import HardwareLinker.Proofs.Tree.Channels
import HardwareLinker.Proofs.Tree.Thread
import HardwareLinker.Proofs.Tree.Chains
import HardwareLinker.Proofs.Tree.Balance
import HardwareLinker.Proofs.Tree.Residual
import HardwareLinker.Proofs.Tree.Conservation
import HardwareLinker.Proofs.Graph.Faces
import HardwareLinker.Proofs.Graph.Renaming
import HardwareLinker.Proofs.Graph.Converged
import HardwareLinker.Proofs.Graph.Correspondence
import HardwareLinker.Proofs.Graph.LoadOrder
import HardwareLinker.Proofs.Command.LoadOrder
import HardwareLinker.Proofs.Graph.Maximal
import HardwareLinker.Proofs.Graph.Rings
import HardwareLinker.Proofs.Graph.RecordOrder
import HardwareLinker.Proofs.Codec
import HardwareLinker.Proofs.Snapshot.Format
import HardwareLinker.Proofs.Workspace
import HardwareLinker.Proofs.Workspace.Frail
import HardwareLinker.Proofs.Snapshot.Store
import HardwareLinker.Proofs.Snapshot.Operations
import HardwareLinker.Proofs.Codec.SelfDelimiting
import HardwareLinker.Proofs.Snapshot.Torn
import HardwareLinker.Proofs.Except
import HardwareLinker.Proofs.Text.Split
import HardwareLinker.Proofs.Decimal.Numeral
import HardwareLinker.Proofs.Floorplan.Check
import HardwareLinker.Proofs.Connection.Record
import HardwareLinker.Proofs.Graph.Log
import HardwareLinker.Proofs.Milp.Feasible
import HardwareLinker.Proofs.Floorplan.Linear
import HardwareLinker.Proofs.Floorplan.Blocks
import HardwareLinker.Proofs.Floorplan.FreeGroup
import HardwareLinker.Proofs.Floorplan.Relate
import HardwareLinker.Proofs.Floorplan.Batch
import HardwareLinker.Proofs.Floorplan.Exact
import HardwareLinker.Proofs.Floorplan.Rounding
import HardwareLinker.Proofs.Floorplan.Answer
import HardwareLinker.Proofs.Floorplan.Keyed
import HardwareLinker.Proofs.Floorplan.Settled
import HardwareLinker.Proofs.Floorplan.Batches
import HardwareLinker.Proofs.Floorplan.Rules
import HardwareLinker.Proofs.Floorplan.Nesting
import HardwareLinker.Proofs.Floorplan.Elaboration
import HardwareLinker.Proofs.Floorplan.Fixed
import HardwareLinker.Proofs.Workspace.Runs
import HardwareLinker.Proofs.Snapshot.Runs
import HardwareLinker.Proofs.Command.Place
import HardwareLinker.Proofs.Floorplan.Chosen
import HardwareLinker.Proofs.Floorplan.Sizes
import HardwareLinker.Proofs.Floorplan.Extents
import HardwareLinker.Proofs.Floorplan.Reuse
import HardwareLinker.Proofs.Floorplan.Rerun
import HardwareLinker.Proofs.Tour.Permutation
import HardwareLinker.Proofs.Binary64.Order
import HardwareLinker.Proofs.Tour.Improvement
import HardwareLinker.Proofs.Command.Treecut
import HardwareLinker.Proofs.Command.History
import HardwareLinker.Proofs.Tree.Boundaries
import HardwareLinker.Proofs.Graph.Mismatch
import HardwareLinker.Proofs.Graph.Orderly
import HardwareLinker.Proofs.Graph.Additive
import HardwareLinker.Proofs.Graph.Priority
import HardwareLinker.Proofs.Graph.Trim
import HardwareLinker.Proofs.Floorplan.Flush
import HardwareLinker.Proofs.Floorplan.Finish
import HardwareLinker.Proofs.Floorplan.WireLength
import HardwareLinker.Proofs.Constraint.Reading
import HardwareLinker.Proofs.Constraint.Hierarchy
import HardwareLinker.Proofs.Constraint.Chunks
import HardwareLinker.Proofs.Constraint.Joined
import HardwareLinker.Proofs.Constraint.Reordering
import HardwareLinker.Proofs.Floorplan.Areas
import HardwareLinker.Proofs.Floorplan.Bisection
import HardwareLinker.Proofs.Milp.SolutionFiles
import HardwareLinker.Proofs.Milp.LpDenotation
import HardwareLinker.Proofs.Tree.Buffers
import HardwareLinker.Proofs.Cut.Conservation
import HardwareLinker.Proofs.Floorplan.Labels
import HardwareLinker.Proofs.Floorplan.Variables
import HardwareLinker.Proofs.Floorplan.WellFormed
