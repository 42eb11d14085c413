import Midend.Graph.Frontier

namespace Midend

/-- Successor and predecessor lists, under the index of each block. -/
structure EdgeLists where
  successors : Array (List BlockId)
  predecessors : Array (List BlockId)

namespace EdgeLists

def empty (n : Nat) : EdgeLists := ⟨Array.replicate n [], Array.replicate n []⟩

/-- Adds an edge from `b` to `s`. Every edge counts as a successor, and its source once as a
predecessor. -/
def add (t : EdgeLists) (b s : BlockId) : EdgeLists where
  successors := t.successors.modify b.index (· ++ [s])
  predecessors := t.predecessors.modify s.index fun ps => if ps.contains b then ps else ps ++ [b]

end EdgeLists

/-- A snapshot of the edges between the live blocks of a function. -/
structure BlockGraph where
  entry : BlockId
  live : Array Bool
  successors : Array (List BlockId)
  predecessors : Array (List BlockId)
deriving DecidableEq, Repr

namespace BlockGraph

def size (g : BlockGraph) : Nat := g.live.size

def isLive (g : BlockGraph) (b : BlockId) : Bool := g.live.getD b.index false

def liveBlocks (g : BlockGraph) : List BlockId :=
  ((List.range g.size).map Handle.mk).filter g.isLive

def successorsOf (g : BlockGraph) (b : BlockId) : List BlockId := g.successors.getD b.index []

def predecessorsOf (g : BlockGraph) (b : BlockId) : List BlockId := g.predecessors.getD b.index []

def toFlowGraph (g : BlockGraph) : FlowGraph := ⟨g.size, g.successorsOf, g.predecessorsOf⟩

end BlockGraph

structure Dominance where
  graph : BlockGraph
  tree : DominatorTree
  frontiers : Frontiers
deriving DecidableEq, Repr

namespace Dominance

def ofGraph (g : BlockGraph) (limit : Nat) : Except Error Dominance := do
  let tree ← g.toFlowGraph.dominators g.entry limit
  return ⟨g, tree, g.toFlowGraph.frontiers tree⟩

def entry (d : Dominance) : BlockId := d.tree.entry

def idom (d : Dominance) (b : BlockId) : Option BlockId := d.tree.idom b

def dominates (d : Dominance) (a b : BlockId) : Bool := d.tree.dominates a b

def strictlyDominates (d : Dominance) (a b : BlockId) : Bool := d.tree.strictlyDominates a b

def isReachable (d : Dominance) (b : BlockId) : Bool := d.tree.isReachable b

def children (d : Dominance) (b : BlockId) : List BlockId := d.tree.children b

def frontier (d : Dominance) (b : BlockId) : OrderedSet BlockId := d.frontiers.of b

/-- The reachable blocks in depth-first preorder. -/
def reachableBlocks (d : Dominance) : List BlockId := d.tree.order

/-- The reachable blocks, each before the blocks that it dominates. -/
def dominatorPreorder (d : Dominance) : List BlockId := d.tree.treePreorder

/-- The predecessors of a block that the entry reaches. -/
def livePredecessors (d : Dominance) (b : BlockId) : List BlockId :=
  (d.graph.predecessorsOf b).filter d.isReachable

/-- Works off a queue of blocks: the kept blocks on the frontier of each join `found`, and those
that were never queued join the queue. -/
def spread (d : Dominance) (keep : BlockId → Bool) :
    Nat → List BlockId → IndexSet → OrderedSet BlockId → OrderedSet BlockId
  | 0, _, _, found => found
  | _ + 1, [], _, found => found
  | fuel + 1, b :: queue, queued, found =>
    let new := (d.frontier b).toList.filter fun w => !found.contains w && keep w
    let next := new.filter fun w => !queued.contains w.index
    spread d keep fuel (queue ++ next) (next.foldl (fun q w => q.insert w.index) queued)
      (new.foldl OrderedSet.insert found)

/-- The closure of `blocks` under taking frontiers, restricted to kept blocks: a block that is not
kept is neither listed nor expanded. -/
def iteratedFrontier (d : Dominance) (blocks : List BlockId) (keep : BlockId → Bool) :
    OrderedSet BlockId :=
  let start := blocks.eraseDups
  d.spread keep (start.length + d.frontiers.size + 1) start
    (start.foldl (fun q b => q.insert b.index) (.withCapacity d.frontiers.size)) ∅

end Dominance

end Midend
