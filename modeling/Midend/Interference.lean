import Midend.Liveness

namespace Midend

/-- Values with their neighbours, and a forest of parent links for the equalities. A parent is
always smaller than its child. -/
@[ext]
structure Interference where
  adjacency : OrderedMap ValueId (OrderedSet ValueId) := ∅
  parents : OrderedMap ValueId ValueId := ∅
deriving DecidableEq, Repr, Inhabited

namespace Interference

def nodes (g : Interference) : List ValueId := g.adjacency.keys

def contains (g : Interference) (v : ValueId) : Bool := g.adjacency.contains v

def nodeCount (g : Interference) : Nat := g.adjacency.size

def neighbours (g : Interference) (v : ValueId) : OrderedSet ValueId :=
  (g.adjacency.get? v).getD ∅

def degree (g : Interference) (v : ValueId) : Nat := (g.neighbours v).size

def interferes (g : Interference) (a b : ValueId) : Bool := (g.neighbours a).contains b

def edgeCount (g : Interference) : Nat := g.adjacency.values.foldr (fun s n => s.size + n) 0 / 2

def addNode (g : Interference) (v : ValueId) : Interference :=
  { g with adjacency := g.adjacency.insert v (g.neighbours v) }

/-- Adds a directed half of an edge. -/
def link (g : Interference) (a b : ValueId) : Interference :=
  { g with adjacency := g.adjacency.insert a ((g.neighbours a).insert b) }

/-- Makes two values neighbours. A value does not interfere with itself. -/
def addEdge (g : Interference) (a b : ValueId) : Interference :=
  if a = b then g else (g.link a b).link b a

def climb (g : Interference) : Nat → ValueId → ValueId
  | 0, v => v
  | fuel + 1, v =>
    match g.parents.get? v with
    | none => v
    | some p => climb g fuel p

/-- The smallest value in the class of `v`. -/
def root (g : Interference) (v : ValueId) : ValueId := g.climb g.parents.size v

/-- Records that two values should be equal; the smaller root becomes the parent of the other. -/
def addEquality (g : Interference) (a b : ValueId) : Interference :=
  let a := g.root a
  let b := g.root b
  if a = b then g
  else if a < b then { g with parents := g.parents.insert b a }
  else { g with parents := g.parents.insert a b }

/-- The classes with at least two nodes, members ascending, by smallest member. -/
def classes (g : Interference) : List (List ValueId) :=
  let rooted := g.nodes.map fun v => (v, g.root v)
  rooted.filterMap fun e =>
    match (rooted.filter fun d => d.2 = e.2).map (·.1) with
    | v :: w :: rest => if v = e.1 then some (v :: w :: rest) else none
    | _ => none

def define (g : Interference) (live : OrderedSet ValueId) (v : ValueId) : Interference :=
  live.toList.foldl (fun g w => g.addEdge v w) (g.addNode v)

/-- A scan down a block: the graph so far and the values live at this point. -/
structure Scan where
  graph : Interference
  live : OrderedSet ValueId

namespace Scan

def enter (l : Liveness) (s : Scan) (v : ValueId) : Scan :=
  if l.isCandidate v then ⟨s.graph.define s.live v, s.live.insert v⟩ else s

/-- Lets go of the operands that end at an instruction, then defines its result against what is
still live. A result that nothing uses is not live afterwards. -/
def step (f : Func) (l : Liveness) (b : BlockId) (s : Scan) (i : InstId) (inst : Inst) :
    Except Error Scan := do
  let live := inst.operands.foldl
    (fun live v =>
      if l.lastUse v b = some (.inst i) && !l.isLiveOut v b then live.erase v else live)
    s.live
  match inst.result with
  | none => return { s with live }
  | some result =>
    if l.isCandidate result then
      let graph := s.graph.define live result
      return ⟨graph, if (← f.value result).isUnused then live else live.insert result⟩
    else return { s with live }

end Scan

/-- Scans a block: live-in values, phi results and, in the entry, arguments come together before the
instructions. -/
def scanBlock (f : Func) (l : Liveness) (g : Interference) (c : BlockCode) :
    Except Error Interference := do
  let start := l.liveIn c.block ++ c.phis.map (·.2.result) ++
    if c.block = f.entry then f.arguments else []
  let s ← c.insts.foldlM (fun s e => s.step f l c.block e.1 e.2)
    (start.foldl (Scan.enter l) ⟨g, ∅⟩)
  return s.graph

/-- Adds the equalities between the result of a phi and those of its sources that are nodes. -/
def addPhi (g : Interference) (p : Phi) : Interference :=
  if g.contains p.result then
    (p.sources.values.filter g.contains).foldl (fun g v => g.addEquality p.result v) g
  else g

def ofLiveness (f : Func) (l : Liveness) : Except Error Interference := do
  let g ← l.code.foldlM (scanBlock f l) (l.candidates.foldl addNode {})
  return (f.phis.live.filterMap f.phis.get?).foldl addPhi g

end Interference

namespace Edit

def interference : Edit Interference := do
  let l ← liveness
  query fun f => Interference.ofLiveness f l

end Edit

end Midend
