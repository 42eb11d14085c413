import Midend.Edit.Basic

namespace Midend.Edit

def addBlock : Edit BlockId :=
  modifyGet fun f =>
    (f.blocks.next, { f with blocks := f.blocks.push {} }.invalidateDominance)

def setEntry (b : BlockId) : Edit Unit := do
  let _ ← query (·.block b)
  modify fun f => { f with entry := b }.invalidateDominance

/-- Sends the edges of a block to `old` to `new` instead and returns how many there were. -/
def retarget (b old new : BlockId) : Edit Nat := do
  let _ ← query (·.block new)
  match ← query (·.terminator b) with
  | none => throw (.invariant (.nothingToRetarget b))
  | some term =>
    let changed := (← query (·.inst term)).opcode.targets.count old
    modify fun f =>
      let f := { f with
        insts := f.insts.modify term fun d => { d with opcode := d.opcode.retarget old new } }
      if changed = 0 then f else f.invalidateDominance
    return changed

def dropEdgeSources (pred b : BlockId) : Edit Unit := do
  match (← get).blocks.get? b with
  | none => return
  | some data => data.phis.forM fun p => discard (removePhiSource p pred)

/-- Empties the slot of a block, with its phis and then its instructions. -/
def discardBlock (b : BlockId) : Edit Unit := do
  let data ← query (·.block b)
  modify fun f => { f with blocks := f.blocks.erase b }
  data.phis.forM discardPhi
  data.insts.forM discardInst

/-- The results of the instructions and then of the phis of a block. -/
def resultsOf (f : Func) (data : Block) : List ValueId :=
  data.insts.filterMap (fun i => (f.insts.get? i).bind (·.result)) ++
    data.phis.filterMap fun p => (f.phis.get? p).map (·.result)

/-- Whether a block can go: it is not the entry, no other block branches to it, and nothing outside
uses its results. -/
def checkRemovable (b : BlockId) (f : Func) : Except Error Unit := do
  if b = f.entry then throw (.invariant (.removesEntry b))
  let data ← f.block b
  match (f.predecessors b).find? (· ≠ b) with
  | some pred => throw (.invariant (.stillTargeted b pred))
  | none => pure ()
  (resultsOf f data).forM fun v => do
    let value ← f.value v
    value.users.forM fun u => do
      if (← f.userBlock u.1) ≠ b then throw (.valueInUse v value.userCount)

def removeBlock (b : BlockId) : Edit Unit := do
  query (checkRemovable b)
  let successors := (← get).successors b
  discardBlock b
  successors.forM (dropEdgeSources b)
  invalidateDominance

/-- Removes every block that the entry does not reach and returns them in arena order. -/
def removeUnreachable : Edit (List BlockId) := do
  let f ← get
  let reachable := f.reachableBlocks
  let dead := f.blockIds.filter fun b => !reachable.contains b
  if dead.isEmpty then return []
  dead.forM fun b => do
    ((← get).successors b).forM fun s => do
      if reachable.contains s then dropEdgeSources b s
  dead.forM discardBlock
  invalidateDominance
  return dead

end Midend.Edit
