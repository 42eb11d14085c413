import Midend.Context
import Midend.Edit.Blocks
import Midend.Promotion.Rename

namespace Midend

structure VisitState (σ : Type) where
  func : Func
  context : Context
  memory : σ

/-- Work on one function. A failed visit keeps what it has changed. -/
abbrev Visit (σ : Type) := ExceptT Error (StateM (VisitState σ))

structure SetupState (σ : Type) where
  context : Context
  memory : σ

abbrev Setup (σ : Type) := ExceptT Error (StateM (SetupState σ))

structure Pass (σ : Type) where
  name : String
  description : String := "No description available"
  applies : FuncId → Context → Bool := fun _ _ => true
  /-- Comes before the first visit of each sweep. -/
  prepare : Setup σ Unit := pure ()
  /-- Works on a function and tells whether it changed it. -/
  visit : FuncId → Visit σ Bool
  /-- Comes after the last visit of each sweep. -/
  conclude : Setup σ Unit := pure ()

namespace Visit

variable {σ : Type}

def edit {α : Type} (e : Edit α) : Visit σ α := do
  let s ← get
  let (result, func) := e.apply s.func
  set { s with func }
  ExceptT.mk (pure result)

def update (u : Context → Context) : Visit σ Unit :=
  modify fun s => { s with context := u s.context }

end Visit

namespace Pass

variable {σ : Type}

def unreachableBlocks : Pass σ where
  name := "unreachable-blocks"
  description := "Removes blocks unreachable from the function entry"
  visit id := do
    let removed ← Visit.edit Edit.removeUnreachable
    removed.forM fun b => Visit.update (·.record {
      kind := .blockRemoved, func := some id, block := some b.index
      message := b.text ++ " is unreachable"
      pass := some "unreachable-blocks" })
    return !removed.isEmpty

/-- The events for one cell: its promotion, then a line for each phi and each instruction gone. -/
def promotionEvents (id : FuncId) (b : BlockId) (cell : InstId) (removed : Nat) :
    Outcome → List Event
  | .skipped _ => []
  | .promoted how =>
    let event (kind : EventKind) (message : String) : Event :=
      { kind, func := some id, block := some b.index, message, pass := some "promotion" }
    event .cellPromoted (cell.text ++ ": " ++ how.text) ::
      List.replicate how.phis (event .phiInserted ("phi for " ++ cell.text)) ++
      List.replicate removed (event .instRemoved ("use of " ++ cell.text))

/-- Promotes cells to values. Events are recorded only when all cells have been tried. -/
def promotion : Pass σ where
  name := "promotion"
  description := "Promotes reference cells to SSA values with pruned phi placement"
  visit id := do
    let captured := (← get).context.config.promoteCaptured
    let changes ← (← Visit.edit Edit.cells).foldlM
      (fun changes i => do
        let b := (← Visit.edit (Edit.query (·.inst i))).block
        let (outcome, removed) ← Visit.edit (Edit.promoteCounted captured i)
        return changes ++ promotionEvents id b i removed outcome)
      []
    Visit.update fun c => { c with events := c.events.merge ⟨changes⟩ }
    return !changes.isEmpty

/-- Stores a slot assignment; the function stays as it is. -/
def allocation : Pass σ where
  name := "allocation"
  description := "Assigns slots to values by coloring the interference graph"
  visit id := do
    let slots ← Visit.edit (Edit.allocateSlots (← get).context.config.coalesce)
    Visit.update fun c => (c.record {
      kind := .slotsAssigned, func := some id
      message := slots.size.repr ++ " value(s) in " ++ slots.count.repr ++ " slot(s)"
      pass := some "allocation" }).setSlots id slots
    return false

def structuring : Pass σ where
  name := "structuring"
  description := "Groups blocks into nested if/loop regions with explicit jumps"
  visit id := do
    let tree ← Visit.edit Edit.controlTree
    tree.toList.forM fun (g, group) => Visit.update (·.record {
      kind := if group.loopHead then .loopDetected else .groupStructured
      func := some id, block := some group.entry.index
      message := g.text ++ " entered at " ++ group.entry.text
      pass := some "structuring" })
    Visit.update (·.setTree id tree)
    return false

def all : List (Pass σ) := [unreachableBlocks, promotion, allocation, structuring]

end Pass

end Midend
