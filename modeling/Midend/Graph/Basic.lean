import Midend.Handle

namespace Midend

/-- A directed graph on the nodes below `size`. Successor lists may repeat a node; predecessor lists
are given separately, because a caller may know them cheaply. -/
structure FlowGraph where
  size : Nat
  successors : BlockId → List BlockId
  predecessors : BlockId → List BlockId

namespace FlowGraph

def nodes (g : FlowGraph) : List BlockId := (List.range g.size).map Handle.mk

/-- The graph of an edge list: successors in list order with repetitions, predecessors in list
order, each once. -/
def ofEdges (size : Nat) (edges : List (BlockId × BlockId)) : FlowGraph where
  size := size
  successors n := (edges.filter fun e => e.1 = n).map (·.2)
  predecessors n := ((edges.filter fun e => e.2 = n).map (·.1)).foldl
    (fun seen p => if p ∈ seen then seen else seen ++ [p]) []

def hidePredecessors (g : FlowGraph) (hidden : List BlockId) : FlowGraph :=
  { g with predecessors := fun n => if n ∈ hidden then [] else g.predecessors n }

/-- The number of edges that leave the nodes below `size` and `start`, one more than which bounds
every walk from `start` that follows each edge once. -/
def edgeBound (g : FlowGraph) (start : BlockId) : Nat :=
  g.nodes.foldr (fun n k => (g.successors n).length + k) (g.successors start).length

end FlowGraph

end Midend
