import Midend.Arena
import Midend.ConstantPool
import Midend.Context
import Midend.ControlTree.Basic
import Midend.ControlTree.Build
import Midend.ControlTree.Frames
import Midend.ControlTree.Text
import Midend.Decimal.Shortest
import Midend.Decimal.Style
import Midend.Dominance
import Midend.Edit.Basic
import Midend.Edit.Blocks
import Midend.Edit.Construct
import Midend.Error
import Midend.Event
import Midend.Func.Basic
import Midend.Func.Listing
import Midend.Func.Verify
import Midend.Graph.Basic
import Midend.Graph.Dominators
import Midend.Graph.Frontier
import Midend.Graph.Traversal
import Midend.Handle
import Midend.IndexSet
import Midend.Interference
import Midend.Literal
import Midend.Liveness
import Midend.Opcode
import Midend.OrderedMap
import Midend.OrderedSet
import Midend.Pass
import Midend.Pipeline
import Midend.Program
import Midend.Promotion.Basic
import Midend.Promotion.Rename
import Midend.Proofs.Arena
import Midend.Proofs.Checked
import Midend.Proofs.ControlTree.Chains
import Midend.Proofs.ControlTree.Coverage
import Midend.Proofs.ControlTree.Frames
import Midend.Proofs.ControlTree.Groups
import Midend.Proofs.ControlTree.Leads
import Midend.Proofs.ControlTree.Loops
import Midend.Proofs.ControlTree.Nesting
import Midend.Proofs.ControlTree.Placement
import Midend.Proofs.ControlTree.Total
import Midend.Proofs.ControlTree.Traces
import Midend.Proofs.ControlTree.Walk
import Midend.Proofs.Edit.Adjacency
import Midend.Proofs.Edit.Analyses
import Midend.Proofs.Edit.Built
import Midend.Proofs.Edit.Cached
import Midend.Proofs.Edit.DeadCode
import Midend.Proofs.Edit.Ensures
import Midend.Proofs.Edit.Failure
import Midend.Proofs.Edit.Formed
import Midend.Proofs.Edit.Keeps
import Midend.Proofs.Edit.Kinds
import Midend.Proofs.Edit.Ledger
import Midend.Proofs.Edit.Links
import Midend.Proofs.Edit.MovedUses
import Midend.Proofs.Edit.Outline
import Midend.Proofs.Edit.Removal
import Midend.Proofs.Edit.Replace
import Midend.Proofs.Edit.Representation
import Midend.Proofs.Edit.SlotsLive
import Midend.Proofs.Edit.Sound
import Midend.Proofs.Edit.Steps
import Midend.Proofs.Edit.Unreachable
import Midend.Proofs.Edit.Uses
import Midend.Proofs.Edit.Values
import Midend.Proofs.Execution
import Midend.Proofs.Func.Accepted
import Midend.Proofs.Func.BlockGraph
import Midend.Proofs.Func.Code
import Midend.Proofs.Func.Fit
import Midend.Proofs.Func.Outline
import Midend.Proofs.Func.Sites
import Midend.Proofs.Func.Verified
import Midend.Proofs.Graph.Convergence
import Midend.Proofs.Graph.DepthFirst
import Midend.Proofs.Graph.Dominators
import Midend.Proofs.Graph.Frontier
import Midend.Proofs.Graph.IdomTable
import Midend.Proofs.Graph.Paths
import Midend.Proofs.Graph.Preorder
import Midend.Proofs.Graph.Restriction
import Midend.Proofs.Graph.Settling
import Midend.Proofs.Graph.Sweep
import Midend.Proofs.Graph.TreeWalks
import Midend.Proofs.IndexSet
import Midend.Proofs.IndexSet.Members
import Midend.Proofs.IndexSet.Refinement
import Midend.Proofs.IndexSet.Words
import Midend.Proofs.Interference
import Midend.Proofs.Interference.Additions
import Midend.Proofs.Interference.Equalities
import Midend.Proofs.Interference.Points
import Midend.Proofs.Interference.Reordering
import Midend.Proofs.Interning
import Midend.Proofs.Liveness
import Midend.Proofs.Liveness.Exact
import Midend.Proofs.OrderedMap
import Midend.Proofs.Pipeline.Fresh
import Midend.Proofs.Pipeline.Passes
import Midend.Proofs.Pipeline.Total
import Midend.Proofs.Pipeline.Views
import Midend.Proofs.Pipeline.Work
import Midend.Proofs.Program
import Midend.Proofs.Promotion.Accounts
import Midend.Proofs.Promotion.Bystander
import Midend.Proofs.Promotion.Calls
import Midend.Proofs.Promotion.Captures
import Midend.Proofs.Promotion.Cells
import Midend.Proofs.Promotion.Complete
import Midend.Proofs.Promotion.Content
import Midend.Proofs.Promotion.Decision
import Midend.Proofs.Promotion.Direct
import Midend.Proofs.Promotion.Dissolve
import Midend.Proofs.Promotion.Kept
import Midend.Proofs.Promotion.Phis
import Midend.Proofs.Promotion.Placement
import Midend.Proofs.Promotion.Promote
import Midend.Proofs.Promotion.Pruning
import Midend.Proofs.Promotion.Reached
import Midend.Proofs.Promotion.Renaming
import Midend.Proofs.Promotion.Sealed
import Midend.Proofs.Promotion.Simulation
import Midend.Proofs.Promotion.Stage
import Midend.Proofs.Promotion.Tries
import Midend.Proofs.Promotion.Verdicts
import Midend.Proofs.Promotion.Walk
import Midend.Proofs.Promotion.WellFormed
import Midend.Proofs.Slots.Colouring
import Midend.Proofs.Slots.Execution
import Midend.Proofs.Slots.Greedy
import Midend.Proofs.Symbolic
import Midend.Slots
import Midend.Text.Extending
import Midend.Text.Quoted
import Midend.Text.Ranges
import Midend.Text.Visible
import Midend.Value
