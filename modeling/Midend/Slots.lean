import Midend.Interference

namespace Midend

@[ext]
structure SlotAssignment where
  slots : OrderedMap ValueId Nat := ∅
  count : Nat := 0
deriving DecidableEq, Repr, Inhabited

namespace SlotAssignment

def slot (a : SlotAssignment) (v : ValueId) : Option Nat := a.slots.get? v

def size (a : SlotAssignment) : Nat := a.slots.size

def isEmpty (a : SlotAssignment) : Bool := a.slots.isEmpty

def toList (a : SlotAssignment) : List (ValueId × Nat) := a.slots.toList

def valuesIn (a : SlotAssignment) (slot : Nat) : List ValueId :=
  (a.toList.filter fun e => e.2 = slot).map (·.1)

/-- The neighbours that share a slot, smaller value first. -/
def conflicts (a : SlotAssignment) (g : Interference) : List (ValueId × ValueId) :=
  a.toList.flatMap fun (v, slot) =>
    ((g.neighbours v).toList.filter fun w => v < w && a.slot w = some slot).map (v, ·)

end SlotAssignment

namespace Interference

/-- The nodes by falling degree, and by value among equals. -/
def colouringOrder (g : Interference) : List ValueId :=
  g.nodes.mergeSort fun a b => g.degree b ≤ g.degree a

def takenSlots (g : Interference) (slots : OrderedMap ValueId Nat) (v : ValueId) : List Nat :=
  (g.neighbours v).toList.filterMap slots.get?

def lowestFree (g : Interference) (slots : OrderedMap ValueId Nat) (v : ValueId) : Nat :=
  let taken := g.takenSlots slots v
  ((List.range (taken.length + 1)).find? fun s => !taken.contains s).getD 0

/-- Gives a slot to a value without one whose neighbours leave it free. -/
def offer (g : Interference) (slot : Nat) (slots : OrderedMap ValueId Nat) (v : ValueId) :
    OrderedMap ValueId Nat :=
  if slots.contains v || (g.takenSlots slots v).contains slot then slots else slots.insert v slot

/-- Colours a value unless it has a slot, and then offers that slot to its class. -/
def colour (g : Interference) (classes : List (List ValueId)) (slots : OrderedMap ValueId Nat)
    (v : ValueId) : OrderedMap ValueId Nat :=
  if slots.contains v then slots
  else
    let slot := g.lowestFree slots v
    ((classes.find? (·.contains v)).getD []).foldl (g.offer slot) (slots.insert v slot)

def allocate (g : Interference) (coalesce : Bool) : SlotAssignment :=
  let classes := if coalesce then g.classes else []
  let slots := g.colouringOrder.foldl (g.colour classes) ∅
  { slots, count := slots.values.foldl (fun n s => max n (s + 1)) 0 }

end Interference

namespace Edit

def allocateSlots (coalesce : Bool) : Edit SlotAssignment := do
  return (← interference).allocate coalesce

end Edit

end Midend
