namespace Midend

inductive Entity where
  | block
  | inst
  | phi
  | value
  | func
  | group
  | const
deriving DecidableEq, Repr

namespace Entity

def letter : Entity → String
  | block => "b"
  | inst => "i"
  | phi => "p"
  | value => "v"
  | func => "f"
  | group => "g"
  | const => "k"

/-- The spelled-out form around an index, for reports that name the kind of handle in full. Groups
keep their short form there. -/
def spelled (index : String) : Entity → String
  | block => "NodeId(" ++ index ++ ")"
  | inst => "InstId(" ++ index ++ ")"
  | phi => "PhiId(" ++ index ++ ")"
  | value => "ValueId(" ++ index ++ ")"
  | func => "FunctionId(" ++ index ++ ")"
  | group => "g" ++ index
  | const => "ConstantId(" ++ index ++ ")"

end Entity

/-- An arena index that remembers what it points at. It is written as one letter and the index, so
`b3` is the fourth block slot. -/
@[ext]
structure Handle (e : Entity) where
  index : Nat
deriving DecidableEq, Hashable, Repr, Inhabited

abbrev BlockId := Handle .block
abbrev InstId := Handle .inst
abbrev PhiId := Handle .phi
abbrev ValueId := Handle .value
abbrev FuncId := Handle .func
abbrev GroupId := Handle .group
abbrev ConstId := Handle .const

namespace Handle

variable {e : Entity}

def text (h : Handle e) : String := e.letter ++ h.index.repr

def spelled (h : Handle e) : String := e.spelled h.index.repr

instance : Ord (Handle e) := ⟨compareOn index⟩

instance : LT (Handle e) := ⟨fun a b => a.index < b.index⟩

instance (a b : Handle e) : Decidable (a < b) := inferInstanceAs (Decidable (a.index < b.index))

instance : Std.TransOrd (Handle e) := inferInstanceAs (Std.TransCmp (compareOn index))

instance : Std.LawfulEqOrd (Handle e) where
  eq_of_compare {a b} h :=
    Handle.ext (Std.LawfulEqOrd.eq_of_compare (h : compare a.index b.index = .eq))

end Handle

end Midend
