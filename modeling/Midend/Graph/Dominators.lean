import Midend.Error
import Midend.Graph.Traversal

namespace Midend

/-- The immediate dominator of each node, `none` for the entry and for unreachable nodes. -/
abbrev IdomTable := Array (Option BlockId)

namespace IdomTable

def idom (t : IdomTable) (n : BlockId) : Option BlockId := t.getD n.index none

/-- The chain of immediate dominators from `n` upwards, cut after `fuel` steps. -/
def climb (t : IdomTable) : Nat → BlockId → List BlockId
  | 0, n => [n]
  | fuel + 1, n =>
    match t.idom n with
    | none => [n]
    | some p => n :: climb t fuel p

/-- The chain from `n` to the root. A chain without repetition fits into the table's size. -/
def chain (t : IdomTable) (n : BlockId) : List BlockId := climb t t.size n

/-- The first node on the chain of `b` that is also on the chain of `a`, or else the root above
`b`. -/
def commonDominator (t : IdomTable) (a b : BlockId) : BlockId :=
  let above := t.chain a
  let runner := t.chain b
  (runner.find? fun n => above.contains n).getD (runner.getLast?.getD b)

end IdomTable

/-- The state of a sweep: the table so far, the nodes visited, and whether this sweep has changed an
entry. -/
structure Sweep where
  table : IdomTable
  visited : IndexSet
  changed : Bool

namespace FlowGraph

/-- The nearest common dominator of the visited predecessors of `n`. -/
def candidate (g : FlowGraph) (s : Sweep) (n : BlockId) : Option BlockId :=
  ((g.predecessors n).filter fun p => s.visited.contains p.index).foldl
    (fun best p =>
      match best with
      | none => some p
      | some q => some (s.table.commonDominator q p))
    none

def sweepNode (g : FlowGraph) (s : Sweep) (n : BlockId) : Except Error Sweep :=
  match g.candidate s n with
  | none => .error (.invariant (.noVisitedPredecessor n))
  | some d =>
    .ok {
      table := s.table.setIfInBounds n.index (some d)
      visited := s.visited.insert n.index
      changed := s.changed || s.table.idom n != some d }

/-- Sweeps over `order` until nothing changes, at most `left` times; the limit of sweeps is only
passed on to the error. Returns the table and how many sweeps are left. -/
def settle (g : FlowGraph) (order : List BlockId) (limit : Nat) :
    Nat → IdomTable → IndexSet → Except Error (IdomTable × Nat)
  | 0, _, _ => .error (.invariant (.dominatorsUnsettled limit))
  | left + 1, table, visited => do
    let s ← order.foldlM g.sweepNode ⟨table, visited, false⟩
    if s.changed then settle g order limit left s.table s.visited else .ok (s.table, left)

end FlowGraph

structure DominatorTree where
  entry : BlockId
  table : IdomTable
  /-- The reachable nodes in depth-first preorder. -/
  order : List BlockId
  reachable : IndexSet
  /-- The number of sweeps it took, the last one without a change. -/
  sweeps : Nat
deriving DecidableEq, Repr

namespace FlowGraph

/-- Sweeps over the preorder until nothing changes: each node in turn takes the nearest common
dominator of those predecessors that have been visited. -/
def dominators (g : FlowGraph) (entry : BlockId) (limit : Nat) : Except Error DominatorTree := do
  let order := g.preorder entry
  let size := max g.size (entry.index + 1)
  let start : IdomTable := Array.replicate size none
  let visited := (IndexSet.withCapacity size).insert entry.index
  let (table, left) ← g.settle (order.drop 1) limit limit start visited
  return {
    entry, table, order
    reachable := .ofList (order.map (·.index))
    sweeps := limit - left }

end FlowGraph

namespace DominatorTree

def idom (t : DominatorTree) (n : BlockId) : Option BlockId := t.table.idom n

def isReachable (t : DominatorTree) (n : BlockId) : Bool := t.reachable.contains n.index

/-- The dominators of `n` from `n` itself up to the entry; none for an unreachable node. -/
def dominatorsOf (t : DominatorTree) (n : BlockId) : List BlockId :=
  if t.isReachable n then t.table.chain n else []

def depth (t : DominatorTree) (n : BlockId) : Nat := (t.dominatorsOf n).length - 1

def dominates (t : DominatorTree) (a b : BlockId) : Bool :=
  t.isReachable a && (t.dominatorsOf b).contains a

def strictlyDominates (t : DominatorTree) (a b : BlockId) : Bool := a != b && t.dominates a b

/-- The nodes that `n` dominates immediately, in preorder. -/
def children (t : DominatorTree) (n : BlockId) : List BlockId :=
  (t.order.drop 1).filter fun c => t.idom c = some n

/-- A walk of the tree below `n` that lists parents first, cut at depth `fuel`. -/
def walkDown (t : DominatorTree) : Nat → BlockId → List BlockId
  | 0, n => [n]
  | fuel + 1, n => n :: (t.children n).flatMap (walkDown t fuel)

def walkUp (t : DominatorTree) : Nat → BlockId → List BlockId
  | 0, n => [n]
  | fuel + 1, n => (t.children n).flatMap (walkUp t fuel) ++ [n]

def treePreorder (t : DominatorTree) : List BlockId := t.walkDown t.table.size t.entry

def treePostorder (t : DominatorTree) : List BlockId := t.walkUp t.table.size t.entry

end DominatorTree

end Midend
