import Midend.Graph.Basic
import Midend.IndexSet

namespace Midend.FlowGraph

def freshSuccessors (g : FlowGraph) (visited : IndexSet) (n : BlockId) : List BlockId :=
  (g.successors n).filter fun s => !visited.contains s.index

/-- Pops nodes until the stack or the fuel runs out. A node can stand on the stack several times;
only the first time that it is popped counts. `order` holds the nodes entered so far, the latest
first. -/
def preorderLoop (g : FlowGraph) : Nat → List BlockId → IndexSet → List BlockId → List BlockId
  | 0, _, _, order => order
  | _ + 1, [], _, order => order
  | fuel + 1, n :: stack, visited, order =>
    if visited.contains n.index then preorderLoop g fuel stack visited order
    else
      let visited := visited.insert n.index
      preorderLoop g fuel (g.freshSuccessors visited n ++ stack) visited (n :: order)

def preorder (g : FlowGraph) (start : BlockId) : List BlockId :=
  (g.preorderLoop (g.edgeBound start + 2) [start] (.withCapacity g.size) []).reverse

inductive Visit where
  | enter (n : BlockId)
  | leave (n : BlockId)
deriving DecidableEq, Repr

/-- Pops visits until the stack or the fuel runs out; `order` holds the nodes left so far, the
latest first. -/
def postorderLoop (g : FlowGraph) : Nat → List Visit → IndexSet → List BlockId → List BlockId
  | 0, _, _, order => order
  | _ + 1, [], _, order => order
  | fuel + 1, .leave n :: stack, visited, order => postorderLoop g fuel stack visited (n :: order)
  | fuel + 1, .enter n :: stack, visited, order =>
    if visited.contains n.index then postorderLoop g fuel stack visited order
    else
      let visited := visited.insert n.index
      postorderLoop g fuel ((g.freshSuccessors visited n).map .enter ++ .leave n :: stack) visited
        order

/-- The nodes reachable from `start`, the last one left first. -/
def reversePostorder (g : FlowGraph) (start : BlockId) : List BlockId :=
  g.postorderLoop (2 * g.edgeBound start + 4) [.enter start] (.withCapacity g.size) []

def postorder (g : FlowGraph) (start : BlockId) : List BlockId :=
  (g.reversePostorder start).reverse

end Midend.FlowGraph
