import Midend.Edit.Basic

namespace Midend

structure Program where
  constants : ConstantPool := {}
  functions : List Func := []
deriving DecidableEq, Repr, Inhabited

namespace Program

def size (p : Program) : Nat := p.functions.length

def isEmpty (p : Program) : Bool := p.functions.isEmpty

def funcIds (p : Program) : List FuncId := (List.range p.size).map Handle.mk

def addFunc (p : Program) (f : Func) : FuncId × Program :=
  (⟨p.size⟩, { p with functions := p.functions ++ [f] })

def func (p : Program) (id : FuncId) : Except Error Func :=
  match p.functions[id.index]? with
  | some f => .ok f
  | none => .error (.noFunc id)

def setFunc (p : Program) (id : FuncId) (f : Func) : Program :=
  { p with functions := p.functions.set id.index f }

def edit {α : Type} (p : Program) (id : FuncId) (e : Edit α) : Except Error α × Program :=
  match p.func id with
  | .error err => (.error err, p)
  | .ok f =>
    let (result, f) := e.apply f
    (result, p.setFunc id f)

/-- The value that stands for a literal in one function, by way of the shared pool. -/
def constant (p : Program) (id : FuncId) (l : Literal) : Except Error ValueId × Program :=
  match p.func id with
  | .error err => (.error err, p)
  | .ok _ =>
    let (k, constants) := p.constants.intern l
    { p with constants }.edit id (Edit.constant k)

end Program

end Midend
