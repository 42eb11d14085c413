import Midend.Edit.Basic

/-!
Liveness by blocks, for the values that can live in slots: ordinary values that a reachable
instruction, a reachable phi or the argument list defines.

The live blocks of a value are its defining block and all blocks from which control can come to a
consumer without passing the definition again. A phi consumes at the end of the predecessor that the
source stands for. Arguments are defined before the entry block, so they stay live around edges back
into it.
-/

namespace Midend

structure BlockCode where
  block : BlockId
  phis : List (PhiId × Phi)
  insts : List (InstId × Inst)
deriving DecidableEq, Repr

structure LiveRange where
  home : BlockId
  isArgument : Bool
  blocks : OrderedSet BlockId
deriving DecidableEq, Repr

/-- The code of the reachable blocks in preorder and the range of each candidate. -/
structure Liveness where
  dom : Dominance
  code : List BlockCode
  ranges : OrderedMap ValueId LiveRange
deriving DecidableEq, Repr

namespace Func

def reachableCode (f : Func) (dom : Dominance) : Except Error (List BlockCode) :=
  dom.reachableBlocks.mapM fun b => do
    let data ← f.block b
    return {
      block := b
      phis := ← data.phis.mapM fun p => return (p, ← f.phi p)
      insts := ← data.insts.mapM fun i => return (i, ← f.inst i) }

/-- The defining block of a value that can live in a slot, if that block is reachable, and whether
the value is an argument. -/
def candidate? (f : Func) (dom : Dominance) (v : ValueId) :
    Except Error (Option (BlockId × Bool)) := do
  let value ← f.value v
  if value.kind = .value && value.definition.isSlotResident then
    let isArgument := match value.definition with
      | .argument _ => true
      | _ => false
    return ((← f.defBlock v).filter dom.isReachable).map (·, isArgument)
  else return none

end Func

namespace BlockCode

def reads (c : BlockCode) (v : ValueId) : Bool := c.insts.any fun e => e.2.operands.contains v

def lastReader (c : BlockCode) (v : ValueId) : Option InstId :=
  (c.insts.reverse.find? fun e => e.2.operands.contains v).map (·.1)

def taker (c : BlockCode) (v : ValueId) (pred : BlockId) : Option PhiId :=
  (c.phis.find? fun e => e.2.source pred = some v).map (·.1)

def takenFrom (c : BlockCode) (v : ValueId) : List BlockId :=
  c.phis.flatMap fun e => (e.2.sources.toList.filter fun s => s.2 = v).map (·.1)

end BlockCode

/-- Adds to `live` every reachable block from which control comes to a block on the stack. -/
def Dominance.spreadBack (dom : Dominance) :
    Nat → List BlockId → OrderedSet BlockId → OrderedSet BlockId
  | 0, _, live => live
  | _ + 1, [], live => live
  | fuel + 1, b :: stack, live =>
    let new := (dom.livePredecessors b).filter fun p => !live.contains p
    spreadBack dom fuel (new ++ stack) (new.foldl OrderedSet.insert live)

namespace Liveness

/-- The reachable blocks that consume a value, by an instruction or at their end for a phi. -/
def consumingBlocks (dom : Dominance) (code : List BlockCode) (v : ValueId) : OrderedSet BlockId :=
  .ofList <| code.flatMap fun c =>
    (c.takenFrom v).filter dom.isReachable ++ if c.reads v then [c.block] else []

/-- The live blocks of a value: backwards from its consumers, up to the definition unless it is an
argument. -/
def liveBlocksOf (dom : Dominance) (code : List BlockCode) (v : ValueId) (home : BlockId)
    (isArgument : Bool) : OrderedSet BlockId :=
  let start : OrderedSet BlockId := if isArgument then ∅ else .ofList [home]
  let consumers := (consumingBlocks dom code v).toList.filter fun b => !start.contains b
  (dom.spreadBack (consumers.length + dom.graph.size + 1) consumers
    (consumers.foldl OrderedSet.insert start)).insert home

def ofFunc (f : Func) (dom : Dominance) : Except Error Liveness := do
  let candidates ← f.values.live.filterMapM fun v =>
    return (← f.candidate? dom v).map (v, ·)
  let code ← f.reachableCode dom
  return {
    dom, code
    ranges := .ofList <| candidates.map fun (v, home, isArgument) =>
      (v, ⟨home, isArgument, liveBlocksOf dom code v home isArgument⟩) }

def candidates (l : Liveness) : List ValueId := l.ranges.keys

def isCandidate (l : Liveness) (v : ValueId) : Bool := l.ranges.contains v

def defBlock (l : Liveness) (v : ValueId) : Option BlockId := (l.ranges.get? v).map (·.home)

def liveBlocks (l : Liveness) (v : ValueId) : Option (OrderedSet BlockId) :=
  (l.ranges.get? v).map (·.blocks)

def isLiveInBlock (l : Liveness) (v : ValueId) (b : BlockId) : Bool :=
  match l.ranges.get? v with
  | none => false
  | some r => r.blocks.contains b

/-- Whether a value is live on entry to a block. In its own block only an argument can be, around a
loop through the entry. -/
def isLiveIn (l : Liveness) (v : ValueId) (b : BlockId) : Bool :=
  match l.ranges.get? v with
  | none => false
  | some r =>
    r.blocks.contains b &&
      (r.home != b || (r.isArgument && (l.dom.livePredecessors l.dom.entry).any r.blocks.contains))

def feedsPhi (l : Liveness) (v : ValueId) (b : BlockId) : Bool :=
  l.code.any fun c => (c.taker v b).isSome

def isLiveOut (l : Liveness) (v : ValueId) (b : BlockId) : Bool :=
  l.isLiveInBlock v b &&
    (l.feedsPhi v b || (l.dom.graph.successorsOf b).any fun s => l.isLiveIn v s)

def liveIn (l : Liveness) (b : BlockId) : List ValueId := l.candidates.filter (l.isLiveIn · b)

def liveOut (l : Liveness) (b : BlockId) : List ValueId := l.candidates.filter (l.isLiveOut · b)

/-- The last consumer of a value in a block: the last instruction that reads it, or else the first
phi that takes it at the end of the block. -/
def lastUse (l : Liveness) (v : ValueId) (b : BlockId) : Option User :=
  if l.isCandidate v && l.dom.isReachable b then
    match (l.code.find? fun c => c.block = b).bind (·.lastReader v) with
    | some i => some (.inst i)
    | none => (l.code.findSome? fun c => c.taker v b).map .phi
  else none

end Liveness

namespace Edit

def liveness : Edit Liveness := do
  let dom ← dominance
  query fun f => Liveness.ofFunc f dom

end Edit

end Midend
