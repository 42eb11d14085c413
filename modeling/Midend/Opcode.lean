import Midend.Handle

namespace Midend

/-- What a value is: an ordinary value, a tuple of values, or a reference to a cell. -/
inductive ValueKind where
  | value
  | tuple
  | reference
deriving DecidableEq, Repr

def ValueKind.text : ValueKind → String
  | .value => "value"
  | .tuple => "tuple"
  | .reference => "reference"

inductive BinaryOp where
  | add
  | sub
  | mul
  | div
  | mod
  | concat
  | eq
  | lt
  | le
deriving DecidableEq, Repr

def BinaryOp.text : BinaryOp → String
  | .add => "add"
  | .sub => "sub"
  | .mul => "mul"
  | .div => "div"
  | .mod => "mod"
  | .concat => "concat"
  | .eq => "eq"
  | .lt => "lt"
  | .le => "le"

inductive UnaryOp where
  | neg
  | not
  | len
deriving DecidableEq, Repr

def UnaryOp.text : UnaryOp → String
  | .neg => "neg"
  | .not => "not"
  | .len => "len"

inductive Arity where
  | exact (n : Nat)
  | atLeast (n : Nat)
deriving DecidableEq, Repr

namespace Arity

def accepts : Arity → Nat → Bool
  | exact n, count => count == n
  | atLeast n, count => n ≤ count

def text : Arity → String
  | exact n => "Exact(" ++ n.repr ++ ")"
  | atLeast n => "AtLeast(" ++ n.repr ++ ")"

end Arity

inductive Opcode where
  | branch (target : BlockId)
  | condBranch (ifTrue ifFalse : BlockId)
  | ret
  | newRef
  | getRef
  | setRef
  | closure (proto : Nat)
  | binary (op : BinaryOp)
  | unary (op : UnaryOp)
  | call
  | vararg
  | select (index : Nat)
  | makeTuple
deriving DecidableEq, Repr

namespace Opcode

def mnemonic : Opcode → String
  | branch _ => "branch"
  | condBranch _ _ => "cond_branch"
  | ret => "return"
  | newRef => "new_ref"
  | getRef => "get_ref"
  | setRef => "set_ref"
  | closure _ => "closure"
  | binary _ => "binary"
  | unary _ => "unary"
  | call => "call"
  | vararg => "vararg"
  | select _ => "select"
  | makeTuple => "make_tuple"

def text : Opcode → String
  | branch target => "branch " ++ target.text
  | condBranch t e => "cond_branch " ++ t.text ++ ", " ++ e.text
  | closure proto => "closure #" ++ proto.repr
  | binary op => op.text
  | unary op => op.text
  | select index => "select " ++ index.repr
  | op => op.mnemonic

def isTerminator : Opcode → Bool
  | branch _ | condBranch _ _ | ret => true
  | _ => false

def resultKind : Opcode → Option ValueKind
  | newRef => some .reference
  | getRef | closure _ | binary _ | unary _ | select _ => some .value
  | call | vararg | makeTuple => some .tuple
  | branch _ | condBranch _ _ | ret | setRef => none

def arity : Opcode → Arity
  | branch _ | vararg => .exact 0
  | condBranch _ _ | newRef | getRef | unary _ | select _ => .exact 1
  | setRef | binary _ => .exact 2
  | call => .atLeast 1
  | ret | closure _ | makeTuple => .atLeast 0

/-- The blocks that control can go to, the true target first. -/
def targets : Opcode → List BlockId
  | branch target => [target]
  | condBranch t e => [t, e]
  | _ => []

def accessesCell : Opcode → Bool
  | getRef | setRef => true
  | _ => false

def retarget (old new : BlockId) : Opcode → Opcode
  | branch target => branch (if target = old then new else target)
  | condBranch t e => condBranch (if t = old then new else t) (if e = old then new else e)
  | op => op

end Opcode

end Midend
