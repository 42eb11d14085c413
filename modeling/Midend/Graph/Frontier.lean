import Midend.Graph.Dominators
import Midend.OrderedSet

namespace Midend

abbrev Frontiers := Array (OrderedSet BlockId)

def Frontiers.of (f : Frontiers) (n : BlockId) : OrderedSet BlockId := f.getD n.index ∅

namespace FlowGraph

/-- The frontier of `n` from its own edges and from the frontiers of its children. -/
def frontierOf (g : FlowGraph) (t : DominatorTree) (f : Frontiers) (n : BlockId) :
    OrderedSet BlockId :=
  .ofList ((g.successors n ++ (t.children n).flatMap fun c => (f.of c).toList).filter
    fun w => t.idom w ≠ some n)

/-- The frontier of every node, children before parents. Unreachable nodes have none. -/
def frontiers (g : FlowGraph) (t : DominatorTree) : Frontiers :=
  t.treePostorder.foldl (fun f n => f.setIfInBounds n.index (g.frontierOf t f n))
    (Array.replicate (max g.size t.table.size) ∅)

end FlowGraph

end Midend
