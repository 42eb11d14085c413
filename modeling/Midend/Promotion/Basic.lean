import Midend.Edit.Basic

namespace Midend

inductive CellUse where
  | load (inst : InstId)
  | store (inst : InstId)
  | capture (inst : InstId)
deriving DecidableEq, Repr

namespace CellUse

def inst : CellUse → InstId
  | load i | store i | capture i => i

def isLoad : CellUse → Bool
  | load _ => true
  | _ => false

def isStore : CellUse → Bool
  | store _ => true
  | _ => false

def isCapture : CellUse → Bool
  | capture _ => true
  | _ => false

end CellUse

inductive Rejection where
  | notCell
  /-- Something other than a load, store or capture uses the cell. -/
  | escapes
  /-- The cell is captured, and captured cells are not to be promoted. -/
  | captured
  | usedAfterCapture
  /-- The cell or one of its uses stands in an unreachable block. -/
  | unreachable
deriving DecidableEq, Repr

def Rejection.text : Rejection → String
  | notCell => "not_a_cell"
  | escapes => "escapes"
  | captured => "captured"
  | usedAfterCapture => "used_after_capture"
  | unreachable => "unreachable"

inductive Promotion where
  | unused
  /-- Without stores every use sees the initial value. -/
  | readOnly
  | writeOnly
  | inBlock
  /-- Phis and renaming; `phis` of them were kept. -/
  | acrossBlocks (phis : Nat)
deriving DecidableEq, Repr

namespace Promotion

def text : Promotion → String
  | unused => "Unused"
  | readOnly => "ReadOnly"
  | writeOnly => "WriteOnly"
  | inBlock => "Local"
  | acrossBlocks phis => "Global \x7b phis: " ++ phis.repr ++ " \x7d"

def phis : Promotion → Nat
  | acrossBlocks n => n
  | _ => 0

end Promotion

inductive Outcome where
  | promoted (how : Promotion)
  | skipped (why : Rejection)
deriving DecidableEq, Repr

/-- A promotable cell: its creation, its value, the first value stored, the block of the creation,
and its uses in the order of its use list. -/
structure Cell where
  creation : InstId
  value : ValueId
  initial : ValueId
  home : BlockId
  uses : List CellUse
deriving DecidableEq, Repr

abbrev Verdict := ExceptT Rejection (Except Error)

namespace Func

def cellUse (f : Func) (dom : Dominance) (cell : ValueId) : User → Verdict CellUse
  | .phi _ => throw .escapes
  | .inst i => do
    let inst ← f.inst i
    let access ← match inst.opcode, inst.operands with
      | .getRef, c :: _ => if c = cell then pure (.load i) else throw .escapes
      | .setRef, c :: stored =>
        if c = cell && stored.head? != some cell then pure (.store i) else throw .escapes
      | .closure _, _ => pure (.capture i)
      | _, _ => throw .escapes
    unless dom.isReachable inst.block do throw .unreachable
    return access

def locate (f : Func) (i : InstId) : Except Error (BlockId × Nat) := do
  let b := (← f.inst i).block
  return (b, ((← f.block b).position i).getD 0)

/-- Whether control can come from the end of `b` to the start of `c`. -/
def canFollow (dom : Dominance) (b c : BlockId) : Bool :=
  (dom.graph.successorsOf b).any fun s => (dom.graph.toFlowGraph.preorder s).contains c

/-- Whether no use of a cell can come after a capture of it by another instruction. -/
def capturesAreFinal (f : Func) (dom : Dominance) (uses : List CellUse) : Except Error Bool := do
  let located ← uses.mapM fun u => return (u, ← f.locate u.inst)
  return located.all fun c => !c.1.isCapture || located.all fun u =>
    u.1.inst = c.1.inst ||
      !(canFollow dom c.2.1 u.2.1 || (u.2.1 = c.2.1 && c.2.2 < u.2.2))

def promotable (f : Func) (captured : Bool) (dom : Dominance) (i : InstId) : Verdict Cell := do
  let inst ← f.inst i
  match inst.opcode, inst.result, inst.operands with
  | .newRef, some value, initial :: _ =>
    unless dom.isReachable inst.block do throw .unreachable
    let uses ← (← f.value value).users.mapM fun u => f.cellUse dom value u.1
    if uses.any CellUse.isCapture then
      unless captured do throw .captured
      unless ← f.capturesAreFinal dom uses do throw .usedAfterCapture
    return { creation := i, value, initial, home := inst.block, uses }
  | _, _, _ => throw .notCell

end Func

end Midend
