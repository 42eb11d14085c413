import Midend.Handle
import Midend.Literal

namespace Midend

/-- The distinct literals in the order of their first request. -/
@[ext]
structure ConstantPool where
  literals : List Literal := []
deriving DecidableEq, Repr, Inhabited

namespace ConstantPool

/-- The largest constant handle; positions past it share it. -/
def maxIndex : Nat := 4294967295

def idAt (position : Nat) : ConstId := ⟨min position maxIndex⟩

def find? (p : ConstantPool) (l : Literal) : Option ConstId := (p.literals.idxOf? l).map idAt

/-- The handle of a literal, which is added at the end if it is new. -/
def intern (p : ConstantPool) (l : Literal) : ConstId × ConstantPool :=
  match p.find? l with
  | some id => (id, p)
  | none => (idAt p.literals.length, ⟨p.literals ++ [l]⟩)

def get? (p : ConstantPool) (id : ConstId) : Option Literal := p.literals[id.index]?

def size (p : ConstantPool) : Nat := p.literals.length

def isEmpty (p : ConstantPool) : Bool := p.literals.isEmpty

def toList (p : ConstantPool) : List (ConstId × Literal) :=
  p.literals.zipIdx.map fun e => (⟨e.2⟩, e.1)

end ConstantPool

end Midend
