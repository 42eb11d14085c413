import Midend.ControlTree.Basic
import Midend.Edit.Basic

/-!
Building one group. From the entry of the group the blocks are chained as long as the next one has
no other predecessor. A branch chains its two arms likewise, each in a frame of its own; if both
arms end at one block that has no predecessors but these two ends, the chain goes on through that
join. All other edges become jumps.
-/

namespace Midend

/-- How a chain ends: for good, or at a block that has to be jumped to. -/
inductive Exit where
  | diverge
  | jump (source target : BlockId)
deriving DecidableEq, Repr

/-- A finished arm of a branch. If it ends at a block, its last node is the jump there. -/
structure Arm where
  body : Region
  exit : Exit

/-- A branch whose arms are being built. The first arm waits for the second. -/
structure OpenBranch where
  block : BlockId
  condition : ValueId
  ifFalse : BlockId
  ifTrue : Option Arm := none

/-- A sequence under construction, and the branch at its end that still waits for an arm. -/
structure Frame where
  body : Region := .done
  branch : Option OpenBranch := none

inductive Move where
  | extend (b : BlockId)
  /-- An arm starts with a block, in a frame of its own. -/
  | openArm (b : BlockId)
  /-- An arm is nothing but a jump. -/
  | jumpArm (source target : BlockId)
  | close (exit : Exit)

/-- A group under construction: the blocks placed so far, the frames, the innermost first, and the
next move. -/
structure Builder where
  placed : IndexSet
  frames : List Frame
  next : Move

namespace Frame

def push (frame : Frame) (node : Region) : Frame :=
  { frame with body := frame.body.append node }

def takeBranch (frame : Frame) : Except Error (OpenBranch × Frame) :=
  match frame.branch with
  | some branch => return (branch, { frame with branch := none })
  | none => throw (.invariant .branchVanished)

end Frame

namespace Func

/-- Whether a block may follow its only predecessor directly. -/
def inlinable (f : Func) (dom : Dominance) (placed : IndexSet) (b : BlockId) : Bool :=
  b != f.entry && !placed.contains b.index && (dom.livePredecessors b).length = 1

/-- Whether a block may follow a branch whose arms end at `s` and `t`. -/
def joinable (f : Func) (dom : Dominance) (placed : IndexSet) (b s t : BlockId) : Bool :=
  let preds := dom.livePredecessors b
  b != f.entry && !placed.contains b.index && preds.length = 2 && preds.contains s &&
    preds.contains t

def join? (f : Func) (dom : Dominance) (placed : IndexSet) : Exit → Exit → Option BlockId
  | .jump s b, .jump t c =>
    if b = c && s != t && f.joinable dom placed b s t then some b else none
  | _, _ => none

/-- What the terminator of a block does: go on to one block, choose between two, or leave. -/
inductive Continuation where
  | next (target : BlockId)
  | choose (condition : ValueId) (ifTrue ifFalse : BlockId)
  | leave
deriving DecidableEq, Repr

/-- The continuation of a block. A branch on a condition with equal targets chooses nothing. -/
def continuation (f : Func) (b : BlockId) : Except Error Continuation := do
  match ← f.terminator b with
  | none => throw (.invariant (.noTerminator b))
  | some term =>
    let inst ← f.inst term
    match inst.opcode with
    | .branch target => return .next target
    | .condBranch t e =>
      if t = e then return .next t
      else
        match inst.operands with
        | condition :: _ => return .choose condition t e
        | [] => throw (.invariant (.branchesOnNothing term))
    | _ => return .leave

def armMove (f : Func) (dom : Dominance) (placed : IndexSet) (b target : BlockId) : Move :=
  if f.inlinable dom placed target then .openArm target else .jumpArm b target

def emit (f : Func) (dom : Dominance) (placed : IndexSet) (frame : Frame) (b : BlockId) :
    Except Error (IndexSet × Frame × Move) := do
  let placed := placed.insert b.index
  let frame := frame.push (.block b .done)
  match ← f.continuation b with
  | .leave => return (placed, frame, .close .diverge)
  | .next target =>
    if f.inlinable dom placed target then return (placed, frame, .extend target)
    else
      return (placed, frame.push (.jump ⟨b, target, false⟩ .done), .close (.jump b target))
  | .choose condition ifTrue ifFalse =>
    return (placed, { frame with branch := some { block := b, condition, ifFalse } },
      f.armMove dom placed b ifTrue)

/-- Hands a finished arm to the branch of the frame around it. The first arm is kept there, and the
second one is begun; with the second arm the branch is complete. -/
def deliver (f : Func) (dom : Dominance) (placed : IndexSet) (parent : Frame) (arm : Arm) :
    Except Error (Frame × Move) := do
  let some branch := parent.branch | throw (.invariant .armWithoutBranch)
  let some first := branch.ifTrue
    | return ({ parent with branch := some { branch with ifTrue := some arm } },
        f.armMove dom placed branch.block branch.ifFalse)
  let (branch, parent) ←
    Frame.takeBranch { parent with branch := some { branch with ifTrue := none } }
  match f.join? dom placed first.exit arm.exit with
  | some join =>
    -- Both arms fall into the join, so their jumps go.
    return (parent.push (.branch branch.block branch.condition first.body.dropLast
      arm.body.dropLast .done), .extend join)
  | none =>
    return (parent.push (.branch branch.block branch.condition first.body arm.body .done),
      .close .diverge)

/-- Makes one move: the builder afterwards, or the body of the group and the blocks placed when the
outermost frame is finished. -/
def advance (f : Func) (dom : Dominance) (m : Builder) :
    Except Error (Builder ⊕ Region × IndexSet) := do
  match m.next, m.frames with
  | .extend b, frame :: outer =>
    let (placed, frame, next) ← f.emit dom m.placed frame b
    return .inl ⟨placed, frame :: outer, next⟩
  | .openArm b, frames =>
    let (placed, frame, next) ← f.emit dom m.placed {} b
    return .inl ⟨placed, frame :: frames, next⟩
  | .jumpArm source target, parent :: outer =>
    let (parent, next) ← f.deliver dom m.placed parent
      ⟨.jump ⟨source, target, false⟩ .done, .jump source target⟩
    return .inl ⟨m.placed, parent :: outer, next⟩
  | .close exit, frame :: frames =>
    if frame.branch.isSome then throw (.invariant .frameLeftOpen)
    match frames with
    | [] => return .inr (frame.body, m.placed)
    | parent :: outer =>
      let (parent, next) ← f.deliver dom m.placed parent ⟨frame.body, exit⟩
      return .inl ⟨m.placed, parent :: outer, next⟩
  | _, [] => throw (.invariant .noFrame)

def finishGroup (f : Func) (dom : Dominance) (entry : BlockId) :
    Nat → Builder → Except Error (Region × IndexSet)
  | 0, _ => throw (.invariant (.endlessChain entry))
  | fuel + 1, m => do
    match ← f.advance dom m with
    | .inl m => finishGroup f dom entry fuel m
    | .inr result => return result

/-- The body of the group entered at a block, and the blocks placed after it. A block is placed
once, and its two arms are handed over, so that three moves for each block suffice, and one for the
end. -/
def buildGroup (f : Func) (dom : Dominance) (placed : IndexSet) (entry : BlockId) :
    Except Error (Region × IndexSet) :=
  f.finishGroup dom entry (3 * f.blocks.size + 4) ⟨placed, [{}], .extend entry⟩

end Func

end Midend
