import Midend.Arena
import Midend.ConstantPool
import Midend.Dominance

namespace Midend

/-- A basic block: its phis, which act together on entry, and its instructions in order. -/
structure Block where
  insts : List InstId := []
  phis : List PhiId := []
deriving DecidableEq, Repr, Inhabited

namespace Block

def last (b : Block) : Option InstId := b.insts.getLast?

def isEmpty (b : Block) : Bool := b.insts.isEmpty && b.phis.isEmpty

def position (b : Block) (i : InstId) : Option Nat := b.insts.idxOf? i

end Block

structure Inst where
  opcode : Opcode
  operands : List ValueId
  result : Option ValueId
  block : BlockId
deriving DecidableEq, Repr

namespace Inst

def isTerminator (i : Inst) : Bool := i.opcode.isTerminator

def holds (i : Inst) (v : ValueId) : Nat := i.operands.count v

end Inst

/-- A phi: one source value for each predecessor, in predecessor order. -/
structure Phi where
  block : BlockId
  result : ValueId
  sources : OrderedMap BlockId ValueId := ∅
deriving DecidableEq, Repr

namespace Phi

def source (p : Phi) (pred : BlockId) : Option ValueId := p.sources.get? pred

def holds (p : Phi) (v : ValueId) : Nat := p.sources.values.count v

end Phi

/-- A function under construction. Dominance is derived from the blocks; `dominance` keeps the last
result until an edit of the block graph. -/
structure Func where
  name : String
  entry : BlockId := ⟨0⟩
  blocks : Arena .block Block := ⟨#[some {}]⟩
  insts : Arena .inst Inst := {}
  phis : Arena .phi Phi := {}
  values : Arena .value Value := {}
  arguments : List ValueId := []
  variadic : Bool := false
  /-- The upvalues captured by address. -/
  openUpvalues : List ValueId := []
  /-- The upvalues captured by copy. -/
  closedUpvalues : List ValueId := []
  constants : OrderedMap ConstId ValueId := ∅
  dominance : Option Dominance := none
  dominanceLimit : Nat := 1024
deriving DecidableEq, Repr

namespace Func

def new (name : String) : Func := { name }

def block (f : Func) (b : BlockId) : Except Error Block :=
  match f.blocks.get? b with
  | some data => .ok data
  | none => .error (.noBlock b)

def inst (f : Func) (i : InstId) : Except Error Inst :=
  match f.insts.get? i with
  | some data => .ok data
  | none => .error (.noInst i)

def phi (f : Func) (p : PhiId) : Except Error Phi :=
  match f.phis.get? p with
  | some data => .ok data
  | none => .error (.noPhi p)

def value (f : Func) (v : ValueId) : Except Error Value :=
  match f.values.get? v with
  | some data => .ok data
  | none => .error (.noValue v)

def blockIds (f : Func) : List BlockId := f.blocks.live

def hasBlock (f : Func) (b : BlockId) : Bool := f.blocks.contains b

/-- The block in which a value is defined. Arguments are defined in the entry, constants and
upvalues nowhere. -/
def defBlock (f : Func) (v : ValueId) : Except Error (Option BlockId) := do
  match (← f.value v).definition with
  | .inst i => return some (← f.inst i).block
  | .phi p => return some (← f.phi p).block
  | .argument _ => return some f.entry
  | .const _ | .upvalue _ _ => return none

def userBlock (f : Func) : User → Except Error BlockId
  | .inst i => return (← f.inst i).block
  | .phi p => return (← f.phi p).block

def upvalues (f : Func) : Capture → List ValueId
  | .byAddress => f.openUpvalues
  | .byCopy => f.closedUpvalues

def constantValue (f : Func) (k : ConstId) : Option ValueId := f.constants.get? k

/-- The last instruction of a block, if it ends the block. -/
def terminator (f : Func) (b : BlockId) : Except Error (Option InstId) := do
  match (← f.block b).last with
  | none => return none
  | some last => return if (← f.inst last).isTerminator then some last else none

def terminatorOpcode? (f : Func) (b : BlockId) : Option Opcode := do
  let data ← f.blocks.get? b
  let inst ← f.insts.get? (← data.last)
  if inst.isTerminator then some inst.opcode else none

/-- The targets of the terminator, with repetitions; none without a terminator. -/
def successors (f : Func) (b : BlockId) : List BlockId :=
  ((f.terminatorOpcode? b).map Opcode.targets).getD []

/-- The live blocks whose terminator targets `b`, each once, in arena order. -/
def predecessors (f : Func) (b : BlockId) : List BlockId :=
  f.blockIds.filter fun p => (f.successors p).contains b

def toFlowGraph (f : Func) : FlowGraph := ⟨f.blocks.size, f.successors, f.predecessors⟩

def reachableBlocks (f : Func) : List BlockId := f.toFlowGraph.preorder f.entry

/-- The snapshot of the edges between live blocks, in one pass over the blocks in arena order. An edge
into a block that is gone is left out. -/
def blockGraph (f : Func) : BlockGraph :=
  let targets (b : BlockId) : List BlockId := (f.successors b).filter f.hasBlock
  let lists : EdgeLists :=
    f.blockIds.foldl (fun t b => (targets b).foldl (fun t s => t.add b s) t) (.empty f.blocks.size)
  { entry := f.entry
    live := f.blocks.slots.map Option.isSome
    successors := lists.successors
    predecessors := lists.predecessors }

def computeDominance (f : Func) (limit : Nat) : Except Error Dominance :=
  Dominance.ofGraph f.blockGraph limit

end Func

end Midend
