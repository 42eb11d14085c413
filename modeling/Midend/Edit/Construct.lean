import Midend.Edit.Basic

namespace Midend.Edit

def appendValue (b : BlockId) (opcode : Opcode) (operands : List ValueId) : Edit ValueId := do
  let i ← append b opcode operands
  match (← query (·.inst i)).result with
  | some v => return v
  | none => throw (.invariant (.noResult opcode))

def branch (b target : BlockId) : Edit InstId := append b (.branch target) []

def condBranch (b : BlockId) (condition : ValueId) (ifTrue ifFalse : BlockId) : Edit InstId :=
  append b (.condBranch ifTrue ifFalse) [condition]

def ret (b : BlockId) (values : List ValueId) : Edit InstId := append b .ret values

def newRef (b : BlockId) (initial : ValueId) : Edit ValueId := appendValue b .newRef [initial]

def getRef (b : BlockId) (cell : ValueId) : Edit ValueId := appendValue b .getRef [cell]

def setRef (b : BlockId) (cell value : ValueId) : Edit InstId := append b .setRef [cell, value]

def closure (b : BlockId) (proto : Nat) (captures : List ValueId) : Edit ValueId :=
  appendValue b (.closure proto) captures

def binary (b : BlockId) (op : BinaryOp) (lhs rhs : ValueId) : Edit ValueId :=
  appendValue b (.binary op) [lhs, rhs]

def unary (b : BlockId) (op : UnaryOp) (operand : ValueId) : Edit ValueId :=
  appendValue b (.unary op) [operand]

def call (b : BlockId) (callee : ValueId) (args : List ValueId) : Edit ValueId :=
  appendValue b .call (callee :: args)

/-- The variadic arguments; a function without any has an empty tuple in their place. -/
def vararg (b : BlockId) : Edit ValueId := do
  appendValue b (if (← get).variadic then .vararg else .makeTuple) []

def select (b : BlockId) (tuple : ValueId) (index : Nat) : Edit ValueId :=
  appendValue b (.select index) [tuple]

def makeTuple (b : BlockId) (elements : List ValueId) : Edit ValueId :=
  appendValue b .makeTuple elements

end Midend.Edit
