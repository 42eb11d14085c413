import Midend.ControlTree.Frames

namespace Midend

namespace Func

/-- Builds the group at each queued block, and queues those targets of its jumps that are neither
placed nor queued before. No block is queued twice, so the number of blocks bounds the rounds. -/
def buildGroups (f : Func) (dom : Dominance) :
    Nat → List BlockId → OrderedSet BlockId → IndexSet → Except Error (List (BlockId × Region))
  | _, [], _, _ => return []
  | 0, b :: _, _, _ => throw (.invariant (.endlessChain b))
  | fuel + 1, b :: queue, queued, placed => do
    let (body, placed) ← f.buildGroup dom placed b
    let new := (body.jumps.map (·.target)).eraseDups.filter fun t =>
      !placed.contains t.index && !queued.contains t
    return (b, body) ::
      (← buildGroups f dom fuel (queue ++ new) (new.foldl OrderedSet.insert queued) placed)

end Func

namespace ControlTree

def entriesOf (groups : List (BlockId × Region)) : OrderedMap BlockId GroupId :=
  .ofList (groups.zipIdx.map fun e => (e.1.1, ⟨e.2⟩))

/-- The group whose entry is the nearest strict dominator of a block. -/
def parentOf (dom : Dominance) (entries : OrderedMap BlockId GroupId) (b : BlockId) :
    Option GroupId :=
  ((dom.tree.dominatorsOf b).drop 1).findSome? entries.get?

/-- Marks a jump to a dominator of its source. -/
def markLoop (dom : Dominance) (j : Jump) : Jump :=
  { j with loopTail := dom.dominates j.target j.source }

def ofGroups (dom : Dominance) (groups : List (BlockId × Region)) : ControlTree :=
  let entries := entriesOf groups
  let bodies := groups.map fun g => g.2.mapJumps (markLoop dom)
  let heads := (bodies.flatMap Region.jumps).filterMap fun j =>
    if j.loopTail then some j.target else none
  let parents := groups.zipIdx.map fun g =>
    if g.2 = 0 then none else parentOf dom entries g.1.1
  { entries
    groups := (groups.zip bodies).zipIdx.map fun ((g, body), k) =>
      { entry := g.1
        body
        parent := parents.getD k none
        children := (parents.zipIdx.filter fun p => p.1 = some ⟨k⟩).map fun p => ⟨p.2⟩
        loopHead := heads.contains g.1 } }

def ofFunc (f : Func) (dom : Dominance) : Except Error ControlTree := do
  let groups ← f.buildGroups dom (f.blocks.size + 1) [f.entry] (.ofList [f.entry])
    (.withCapacity f.blocks.size)
  return ofGroups dom groups

end ControlTree

namespace Edit

def controlTree : Edit ControlTree := do
  let dom ← dominance
  query fun f => ControlTree.ofFunc f dom

end Edit

end Midend
