import Midend.Value

namespace Midend

/-- An invariant that a computation or an edit found broken. -/
inductive Fault where
  /-- The dominator sweep still changed something when its limit was reached. -/
  | dominatorsUnsettled (limit : Nat)
  /-- A node was reached in preorder before any of its predecessors. -/
  | noVisitedPredecessor (node : BlockId)
  | removesEntry (block : BlockId)
  | stillTargeted (block pred : BlockId)
  /-- Only a terminator can be retargeted. -/
  | nothingToRetarget (block : BlockId)
  /-- A terminator can only be appended. -/
  | insertsTerminator (opcode : Opcode) (before : InstId)
  | notSequenced (inst : InstId) (block : BlockId)
  | operandCount (opcode : Opcode) (count : Nat)
  | notReference (opcode : Opcode) (cell : ValueId)
  | noOperand (inst : InstId) (index : Nat)
  | noResult (opcode : Opcode)
  | storesNothing (inst : InstId)
  /-- Something other than a load, store or capture uses a cell under promotion. -/
  | notCellAccess (inst : InstId) (opcode : Opcode) (cell : ValueId)
  | noTerminator (block : BlockId)
  | branchesOnNothing (inst : InstId)
  | noFrame
  | armWithoutBranch
  | branchVanished
  | frameLeftOpen
  /-- A group, or the queue of groups, took more rounds than the blocks allow. -/
  | endlessChain (block : BlockId)
deriving DecidableEq, Repr

def Fault.message : Fault → String
  | dominatorsUnsettled limit =>
    "Dominator fixpoint did not settle within " ++ limit.repr ++ " iterations"
  | noVisitedPredecessor node =>
    "Node " ++ node.text ++ " reached in preorder without a visited predecessor"
  | removesEntry block => "Cannot remove entry block " ++ block.text
  | stillTargeted block pred =>
    "Cannot remove block " ++ block.text ++ " while " ++ pred.text ++ " still branches to it"
  | nothingToRetarget block => "Block " ++ block.text ++ " has no terminator to retarget"
  | insertsTerminator opcode before =>
    "Cannot insert terminator '" ++ opcode.text ++ "' before " ++ before.text
  | notSequenced inst block => inst.text ++ " is not sequenced in " ++ block.text
  | operandCount opcode count =>
    "'" ++ opcode.text ++ "' does not accept " ++ count.repr ++ " operand(s)"
  | notReference opcode cell =>
    "'" ++ opcode.text ++ "' operand " ++ cell.text ++ " is not a reference"
  | noOperand inst index => inst.text ++ " has no operand " ++ index.repr
  | noResult opcode => "'" ++ opcode.text ++ "' produced no value"
  | storesNothing inst => inst.text ++ " stores nothing"
  | notCellAccess inst opcode cell =>
    inst.text ++ " (" ++ opcode.text ++ ") uses cell " ++ cell.text ++ " but is not a cell access"
  | noTerminator block => block.text ++ " has no terminator"
  | branchesOnNothing inst => inst.text ++ " branches on nothing"
  | noFrame => "empty frame stack"
  | armWithoutBranch => "arm finished without a pending branch"
  | branchVanished => "pending branch vanished"
  | frameLeftOpen => "frame closed with an open branch"
  | endlessChain block => "chain through " ++ block.text ++ " does not end"

inductive Breach where
  | noDominance
  | noEntry
  | emptyBlock
  | noTerminator
  | deadInst
  | instOwner (owner : BlockId)
  | terminatorNotLast
  | deadTarget (target : BlockId)
  | foreignResult (result : ValueId) (definition : Definition)
  | deadResult (result : ValueId)
  | deadOperand (operand : ValueId)
  | operandUses (operand : ValueId) (recorded held : Nat)
  | undominatedOperand (operand : ValueId)
  | deadPhi (phi : PhiId)
  | phiOwner (phi : PhiId) (owner : BlockId)
  | brokenPhiResult (phi : PhiId) (result : ValueId)
  | deadSource (phi : PhiId) (source : ValueId)
  | sourceUses (phi : PhiId) (source : ValueId)
  | undominatedSource (phi : PhiId) (source : ValueId) (pred : BlockId)
  | missingSource (phi : PhiId) (pred : BlockId)
  | extraSource (phi : PhiId) (pred : BlockId)
  | orphanOfInst (value : ValueId)
  | orphanOfPhi (value : ValueId) (phi : PhiId)
  | userUses (value : ValueId) (recorded : Nat) (user : User) (held : Nat)
  | deadUser (value : ValueId) (user : User)
deriving DecidableEq, Repr

def Breach.message : Breach → String
  | noDominance => "dominance could not be computed"
  | noEntry => "entry block does not exist"
  | emptyBlock => "block is empty (missing terminator)"
  | noTerminator => "missing terminator"
  | deadInst => "sequenced instruction does not exist"
  | instOwner owner => "instruction is owned by " ++ owner.text
  | terminatorNotLast => "terminator is not last"
  | deadTarget target => "branch to missing block " ++ target.text
  | foreignResult result definition =>
    "result " ++ result.text ++ " is defined by " ++ definition.spelled
  | deadResult result => "result " ++ result.text ++ " does not exist"
  | deadOperand operand => "operand " ++ operand.text ++ " does not exist"
  | operandUses operand recorded held =>
    "use list of " ++ operand.text ++ " records " ++ recorded.repr ++ " use(s), operands hold " ++
      held.repr
  | undominatedOperand operand =>
    "operand " ++ operand.text ++ " is not dominated by its definition"
  | deadPhi phi => "listed phi " ++ phi.text ++ " does not exist"
  | phiOwner phi owner => "phi " ++ phi.text ++ " is owned by " ++ owner.text
  | brokenPhiResult phi result => "phi " ++ phi.text ++ " result " ++ result.text ++ " is broken"
  | deadSource phi source => "phi " ++ phi.text ++ " source " ++ source.text ++ " does not exist"
  | sourceUses phi source =>
    "use list of " ++ source.text ++ " is out of sync with phi " ++ phi.text
  | undominatedSource phi source pred =>
    "phi " ++ phi.text ++ " source " ++ source.text ++ " from " ++ pred.text ++
      " is not dominated by its definition"
  | missingSource phi pred => "phi " ++ phi.text ++ " has no source for predecessor " ++ pred.text
  | extraSource phi pred => "phi " ++ phi.text ++ " has a source for non-predecessor " ++ pred.text
  | orphanOfInst value => "value " ++ value.text ++ " claims a dead defining instruction"
  | orphanOfPhi value phi => "value " ++ value.text ++ " claims dead phi " ++ phi.text
  | userUses value recorded user held =>
    value.text ++ " records " ++ recorded.repr ++ " use(s) by " ++ user.text ++ ", which holds " ++
      held.repr
  | deadUser value user => value.text ++ " is used by dead " ++ user.text

structure Violation where
  function : String
  block : Option BlockId := none
  inst : Option InstId := none
  breach : Breach
deriving DecidableEq, Repr

namespace Violation

def message (v : Violation) : String := v.breach.message

def text (v : Violation) : String :=
  v.function ++ (v.block.map fun b => " " ++ b.text).getD "" ++
    (v.inst.map fun i => " " ++ i.text).getD "" ++ ": " ++ v.message

end Violation

inductive Error where
  | invariant (fault : Fault)
  | terminatorExists (block : BlockId)
  | valueInUse (value : ValueId) (consumers : Nat)
  | noBlock (block : BlockId)
  | noInst (inst : InstId)
  | noPhi (phi : PhiId)
  | noValue (value : ValueId)
  | noFunc (func : FuncId)
  | verification (violations : List Violation)
deriving DecidableEq, Repr

def Error.message : Error → String
  | invariant fault => fault.message
  | terminatorExists block => "Block " ++ block.text ++ " already ends in a terminator"
  | valueInUse value consumers =>
    "Value " ++ value.text ++ " still has " ++ consumers.repr ++ " consumer(s)"
  | noBlock block => "Block " ++ block.text ++ " does not exist"
  | noInst inst => "Instruction " ++ inst.text ++ " does not exist"
  | noPhi phi => "Phi " ++ phi.text ++ " does not exist"
  | noValue value => "Value " ++ value.text ++ " does not exist"
  | noFunc func => "Function " ++ func.text ++ " does not exist"
  | verification violations =>
    violations.foldl (fun out v => out ++ "\n  - " ++ v.text)
      (violations.length.repr ++ " IR violation(s)")

end Midend
