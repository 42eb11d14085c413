import Midend.Promotion.Basic

/-!
Replacing a cell by the values stored in it. Loads become the value current at that place, stores
change it and go, captures take a copy of it. Where stores reach a place along different paths a phi
is put on the iterated frontier of the stores; phis that only feed dead phis go again.
-/

namespace Midend

namespace Func

/-- The instructions of a block, or those after one of them; none if it is not there. -/
def instsAfter (f : Func) (b : BlockId) (after : Option InstId) : Except Error (List InstId) := do
  let data ← f.block b
  match after with
  | none => return data.insts
  | some i =>
    match data.position i with
    | none => return []
    | some position => return data.insts.drop (position + 1)

/-- Marks the phis among `ours` that feed a marked one, in the order of a stack. -/
def markFeeding (f : Func) (ours : List PhiId) :
    Nat → List PhiId → List PhiId → Except Error (List PhiId)
  | 0, _, marked => return marked
  | _ + 1, [], marked => return marked
  | fuel + 1, p :: stack, marked => do
    let feeding ← (← f.phi p).sources.values.filterMapM fun v => do
      match (← f.value v).definition with
      | .phi q => return if ours.contains q then some q else none
      | _ => return none
    let new := feeding.eraseDups.filter fun q => !marked.contains q
    markFeeding f ours fuel (new.reverse ++ stack) (new ++ marked)

/-- The phis among `ours` that something other than `ours` uses, directly or through others. -/
def livePhis (f : Func) (ours : List PhiId) : Except Error (List PhiId) := do
  let observed ← ours.filterM fun p => do
    let value ← f.value (← f.phi p).result
    return value.users.any fun u =>
      match u.1 with
      | .inst _ => true
      | .phi q => !ours.contains q
  f.markFeeding ours (ours.length + 1) observed.reverse observed

end Func

namespace Edit

/-- Takes a cell out of one instruction. Returns the value that the cell holds after it, given the
one that it holds before. -/
def dissolveUse (cell : ValueId) (current : ValueId) (i : InstId) : Edit ValueId := do
  let inst ← query (·.inst i)
  if !inst.operands.contains cell then return current
  match inst.opcode with
  | .getRef =>
    match inst.result with
    | some result => discard (replaceAllUses result current)
    | none => pure ()
    removeInst i
    return current
  | .setRef =>
    match inst.operands[1]? with
    | none => throw (.invariant (.storesNothing i))
    | some stored =>
      removeInst i
      return stored
  | .closure _ =>
    (inst.operands.zipIdx.filter fun e => e.1 = cell).forM fun e => setOperand i e.2 current
    return current
  | opcode => throw (.invariant (.notCellAccess i opcode cell))

/-- Renames in a block and then in the blocks below it in the dominator tree. A block with a phi of
the cell starts from that phi, any other from the value at the end of its immediate dominator. -/
def renameFrom (dom : Dominance) (cell : Cell) (phiAt : OrderedMap BlockId PhiId) :
    Nat → BlockId → ValueId → Edit Unit
  | 0, _, _ => return
  | fuel + 1, b, incoming => do
    let start ← match phiAt.get? b with
      | some p => (·.result) <$> query (·.phi p)
      | none => pure incoming
    let insts ← query (·.instsAfter b (if b = cell.home then some cell.creation else none))
    let current ← insts.foldlM (dissolveUse cell.value) start
    (dom.graph.successorsOf b).eraseDups.forM fun s =>
      match phiAt.get? s with
      | some p => setPhiSource p b current
      | none => pure ()
    (dom.children b).forM fun c => renameFrom dom cell phiAt fuel c current

def pruneDeadPhis (phis : List PhiId) : Edit Nat := do
  let live ← query (·.livePhis phis)
  let dead := phis.filter fun p => !live.contains p
  dead.forM fun p => do
    (← query (·.phi p)).sources.keys.forM fun pred => discard (removePhiSource p pred)
  dead.forM removePhi
  return dead.length

/-- Places phis for a cell, renames below its creation, and prunes. Returns the number of phis
kept. -/
def rename (dom : Dominance) (cell : Cell) : Edit Nat := do
  let stores ← (cell.uses.filter CellUse.isStore).mapM fun u =>
    return (← query (·.inst u.inst)).block
  let placement := dom.iteratedFrontier (OrderedSet.ofList stores).toList
    (dom.strictlyDominates cell.home)
  let phiAt ← placement.toList.foldlM (fun m b => return m.insert b (← addPhi b)) ∅
  renameFrom dom cell phiAt (dom.tree.table.size + 1) cell.home cell.initial
  let removed ← pruneDeadPhis phiAt.values
  return phiAt.size - removed

def dissolve (dom : Dominance) (cell : Cell) : Edit Promotion := do
  if cell.uses.isEmpty then return .unused
  if !cell.uses.any CellUse.isStore then
    cell.uses.forM fun u => discard (dissolveUse cell.value cell.initial u.inst)
    return .readOnly
  if cell.uses.all CellUse.isStore then
    cell.uses.forM fun u => removeInst u.inst
    return .writeOnly
  let blocks ← cell.uses.mapM fun u => return (← query (·.inst u.inst)).block
  if blocks.all (· = cell.home) then
    let insts ← query (·.instsAfter cell.home (some cell.creation))
    discard (insts.foldlM (dissolveUse cell.value) cell.initial)
    return .inBlock
  return .acrossBlocks (← rename dom cell)

def promoteCell (captured : Bool) (i : InstId) : Edit Outcome := do
  let dom ← dominance
  match ← query fun f => f.promotable captured dom i with
  | .error why => return .skipped why
  | .ok cell =>
    let how ← dissolve dom cell
    removeInst i
    return .promoted how

/-- The instructions of reachable blocks that create cells, in dominator tree preorder. -/
def cells : Edit (List InstId) := do
  let dom ← dominance
  let byBlock ← dom.dominatorPreorder.mapM fun b => do
    (← query (·.block b)).insts.filterM fun i => return (← query (·.inst i)).opcode = .newRef
  return byBlock.flatten

end Edit

structure PromotionStats where
  promoted : Nat := 0
  skipped : Nat := 0
  phis : Nat := 0
  /-- Creations, loads and stores removed. -/
  removed : Nat := 0
deriving DecidableEq, Repr

namespace PromotionStats

def changed (s : PromotionStats) : Bool := 0 < s.promoted

def add (s : PromotionStats) (removed : Nat) : Outcome → PromotionStats
  | .promoted how =>
    { s with promoted := s.promoted + 1, phis := s.phis + how.phis, removed := s.removed + removed }
  | .skipped _ => { s with skipped := s.skipped + 1 }

end PromotionStats

namespace Edit

/-- Promotes one cell and tells by how much the number of instructions fell. -/
def promoteCounted (captured : Bool) (i : InstId) : Edit (Outcome × Nat) := do
  let before := (← get).insts.count
  let outcome ← promoteCell captured i
  return (outcome, before - (← get).insts.count)

def promoteAll (captured : Bool) : Edit PromotionStats := do
  (← cells).foldlM
    (fun stats i => do
      let (outcome, removed) ← promoteCounted captured i
      return stats.add removed outcome)
    {}

end Edit

end Midend
