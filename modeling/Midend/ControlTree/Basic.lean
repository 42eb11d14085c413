import Midend.Handle
import Midend.OrderedMap
import Midend.OrderedSet

namespace Midend

/-- An edge of the block graph. Edges are ordered by source, then target. -/
structure Edge where
  source : BlockId
  target : BlockId
deriving DecidableEq, Repr

namespace Edge

instance : Ord Edge := ⟨compareLex (compareOn source) (compareOn target)⟩

instance : Std.TransOrd Edge :=
  inferInstanceAs (Std.TransCmp (compareLex (compareOn source) (compareOn target)))

instance : Std.LawfulEqOrd Edge where
  eq_of_compare {a b} h := by
    have h' : (compare a.source b.source).then (compare a.target b.target) = .eq := h
    obtain ⟨h₁, h₂⟩ := Ordering.then_eq_eq.1 h'
    cases a
    cases b
    exact congr (congrArg Edge.mk (Std.LawfulEqOrd.eq_of_compare h₁))
      (Std.LawfulEqOrd.eq_of_compare h₂)

end Edge

/-- A jump from the end of a block to the entry of a group. A loop tail goes back to a block that
dominates its source. -/
structure Jump where
  source : BlockId
  target : BlockId
  loopTail : Bool := false
deriving DecidableEq, Repr

/-- A sequence of blocks, branches and jumps. A branch follows the block that decides it; after an
arm that does not jump control goes on behind the branch. -/
inductive Region where
  | done
  | block (b : BlockId) (rest : Region)
  | branch (b : BlockId) (condition : ValueId) (ifTrue ifFalse rest : Region)
  | jump (j : Jump) (rest : Region)
deriving DecidableEq, Repr

namespace Region

def endWith (j : Jump) : Region → Region
  | done => jump j done
  | block b rest => block b (rest.endWith j)
  | branch b condition t e rest => branch b condition t e (rest.endWith j)
  | jump i rest => jump i (rest.endWith j)

def append : Region → Region → Region
  | done, r => r
  | block b rest, r => block b (rest.append r)
  | branch b condition t e rest, r => branch b condition t e (rest.append r)
  | jump i rest, r => jump i (rest.append r)

def dropLast : Region → Region
  | done | block _ done | branch _ _ _ _ done | jump _ done => done
  | block b rest => block b rest.dropLast
  | branch b condition t e rest => branch b condition t e rest.dropLast
  | jump i rest => jump i rest.dropLast

def jumps : Region → List Jump
  | done => []
  | block _ rest => rest.jumps
  | branch _ _ t e rest => t.jumps ++ e.jumps ++ rest.jumps
  | jump j rest => j :: rest.jumps

def blocks : Region → List BlockId
  | done => []
  | block b rest => b :: rest.blocks
  | branch _ _ t e rest => t.blocks ++ e.blocks ++ rest.blocks
  | jump _ rest => rest.blocks

def hasBranch : Region → Bool
  | done => false
  | block _ rest | jump _ rest => rest.hasBranch
  | branch _ _ _ _ _ => true

def mapJumps (u : Jump → Jump) : Region → Region
  | done => done
  | block b rest => block b (rest.mapJumps u)
  | branch b condition t e rest =>
    branch b condition (t.mapJumps u) (e.mapJumps u) (rest.mapJumps u)
  | jump j rest => jump (u j) (rest.mapJumps u)

def first? : Region → Option BlockId
  | block b _ => some b
  | _ => none

/-- The edges from `b` into the region, where `follow` is the block that comes after its end. -/
def edgeInto (b : BlockId) (follow : Option BlockId) : Region → List Edge
  | block s _ => [⟨b, s⟩]
  | done => (follow.map (Edge.mk b)).toList
  | _ => []

/-- The edges that the region stands for, where `follow` is the block that comes after its end. -/
def edges (follow : Option BlockId) : Region → List Edge
  | done => []
  | block b rest => rest.edgeInto b follow ++ rest.edges follow
  | branch b _ t e rest =>
    let join := rest.first?
    t.edgeInto b join ++ e.edgeInto b join ++ t.edges join ++ e.edges join ++ rest.edges follow
  | jump j rest => ⟨j.source, j.target⟩ :: rest.edges follow

end Region

/-- A region that is entered only at its first block. -/
structure ControlGroup where
  entry : BlockId
  body : Region
  parent : Option GroupId
  children : List GroupId
  loopHead : Bool
deriving DecidableEq, Repr

/-- The groups of a function in the order of their making; the first one holds the entry. -/
structure ControlTree where
  groups : List ControlGroup
  entries : OrderedMap BlockId GroupId
deriving DecidableEq, Repr

namespace ControlTree

def root : GroupId := ⟨0⟩

def group? (t : ControlTree) (g : GroupId) : Option ControlGroup := t.groups[g.index]?

def toList (t : ControlTree) : List (GroupId × ControlGroup) :=
  t.groups.zipIdx.map fun e => (⟨e.2⟩, e.1)

def groupOf (t : ControlTree) (b : BlockId) : Option GroupId := t.entries.get? b

def loopHeads (t : ControlTree) : List GroupId :=
  (t.toList.filter fun e => e.2.loopHead).map (·.1)

def jumps (t : ControlTree) : List Jump := t.groups.flatMap (·.body.jumps)

def blocks (t : ControlTree) : List BlockId := t.groups.flatMap (·.body.blocks)

def hasBranches (t : ControlTree) : Bool := t.groups.any (·.body.hasBranch)

def edges (t : ControlTree) : OrderedSet Edge :=
  .ofList (t.groups.flatMap (·.body.edges none))

end ControlTree

end Midend
