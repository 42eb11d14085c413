import Midend.ControlTree.Build
import Midend.Proofs.Checked
import Midend.Proofs.Edit.Steps

namespace Midend

/-- Decides a branch from the blocks visited so far, the latest first. -/
abbrev Oracle := List BlockId → Bool

/-- A walk of the blocks: those visited, the latest first, and the one that comes next. -/
structure BlockWalk where
  visited : List BlockId
  next : Option BlockId

namespace Func

/-- The block after `b`, which is the latest of the visited ones. -/
def nextBlock (f : Func) (oracle : Oracle) (visited : List BlockId) (b : BlockId) :
    Option BlockId :=
  match f.terminatorOpcode? b with
  | some (.branch target) => some target
  | some (.condBranch t e) => if t = e then some t else if oracle visited then some t else some e
  | _ => none

def walkStep (f : Func) (oracle : Oracle) (w : BlockWalk) : BlockWalk :=
  match w.next with
  | none => w
  | some b => ⟨b :: w.visited, f.nextBlock oracle (b :: w.visited) b⟩

def walk (f : Func) (oracle : Oracle) : Nat → BlockWalk
  | 0 => ⟨[], some f.entry⟩
  | n + 1 => f.walkStep oracle (f.walk oracle n)

end Func

/-- A walk of a tree: the blocks visited, the latest first, and what is left to go through, the
innermost region first. -/
structure TreeWalk where
  visited : List BlockId
  left : List Region

namespace ControlTree

def bodyAt (t : ControlTree) (b : BlockId) : Option Region :=
  ((t.groupOf b).bind t.group?).map (·.body)

/-- Goes on by one node. A walk with nothing left stays as it is. -/
def walkStep (t : ControlTree) (oracle : Oracle) (w : TreeWalk) : TreeWalk :=
  match w.left with
  | [] => w
  | .done :: outer => ⟨w.visited, outer⟩
  | .block b rest :: outer => ⟨b :: w.visited, rest :: outer⟩
  | .branch _ _ ifTrue ifFalse rest :: outer =>
    ⟨w.visited, (if oracle w.visited then ifTrue else ifFalse) :: rest :: outer⟩
  | .jump j _ :: _ => ⟨w.visited, (t.bodyAt j.target).toList⟩

def walk (t : ControlTree) (oracle : Oracle) : Nat → TreeWalk
  | 0 => ⟨[], ((t.group? root).map (·.body)).toList⟩
  | n + 1 => t.walkStep oracle (t.walk oracle n)

end ControlTree

namespace Region

def conditions : Region → List (BlockId × ValueId)
  | done => []
  | block _ rest | jump _ rest => rest.conditions
  | branch b condition t e rest =>
    (b, condition) :: (t.conditions ++ e.conditions ++ rest.conditions)

end Region

namespace Func

variable {f : Func}

/-- Where control goes after a block whose continuation is known, once the oracle has answered. -/
def Continuation.resolve (answer : Bool) : Continuation → Option BlockId
  | .next target => some target
  | .choose _ ifTrue ifFalse => some (if answer then ifTrue else ifFalse)
  | .leave => none

theorem terminator_eq_ok {b : BlockId} {i : InstId} (h : f.terminator b = .ok (some i)) :
    ∃ inst, f.insts.get? i = some inst ∧ f.terminatorOpcode? b = some inst.opcode := by
  unfold terminator at h
  obtain ⟨data, hb, h⟩ := bind_eq_ok.1 h
  split at h
  · cases h
  · rename_i last hlast
    obtain ⟨inst, hi, h⟩ := bind_eq_ok.1 h
    have hite := pure_eq_ok.1 h
    split at hite
    · rename_i hterm
      obtain rfl := Option.some.inj hite
      replace hb := block_eq_ok.1 hb
      replace hi := inst_eq_ok.1 hi
      exact ⟨inst, hi, by simp [terminatorOpcode?, hb, hlast, hi, hterm]⟩
    · cases hite

theorem continuation_eq_ok {b : BlockId} {c : Continuation} (h : f.continuation b = .ok c) :
    ∃ i inst, f.terminator b = .ok (some i) ∧ f.insts.get? i = some inst ∧
      f.terminatorOpcode? b = some inst.opcode ∧
      match inst.opcode with
      | .branch target => c = .next target
      | .condBranch t e =>
        if t = e then c = .next t
        else ∃ condition, inst.operands.head? = some condition ∧ c = .choose condition t e
      | _ => c = .leave := by
  unfold continuation at h
  obtain ⟨term?, hterm, h⟩ := bind_eq_ok.1 h
  cases term? with
  | none => cases h
  | some i =>
    obtain ⟨inst, hi, h⟩ := bind_eq_ok.1 h
    obtain ⟨inst', hi', hop⟩ := terminator_eq_ok hterm
    obtain rfl := Option.some.inj ((inst_eq_ok.1 hi).symm.trans hi')
    refine ⟨i, inst, hterm, hi', hop, ?_⟩
    cases hopcode : inst.opcode <;> simp only [hopcode] at h ⊢
    case condBranch t e =>
      split at h
      · rw [if_pos ‹_›]
        exact (pure_eq_ok.1 h).symm
      · rw [if_neg ‹_›]
        split at h
        · rename_i condition rest hops
          exact ⟨condition, by rw [hops]; rfl, (pure_eq_ok.1 h).symm⟩
        · cases h
    all_goals exact (pure_eq_ok.1 h).symm

theorem nextBlock_eq {b : BlockId} {c : Continuation} (h : f.continuation b = .ok c)
    (oracle : Oracle) (visited : List BlockId) :
    f.nextBlock oracle visited b = c.resolve (oracle visited) := by
  obtain ⟨i, inst, -, -, hop, hc⟩ := continuation_eq_ok h
  unfold nextBlock
  rw [hop]
  cases hopcode : inst.opcode <;> simp only [hopcode] at hc ⊢
  case condBranch t e =>
    split at hc
    · subst hc
      rw [if_pos ‹_›]
      rfl
    · obtain ⟨condition, -, rfl⟩ := hc
      rw [if_neg ‹_›]
      cases oracle visited <;> rfl
  all_goals
    subst hc
    rfl

end Func

end Midend
