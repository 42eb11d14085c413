import Midend.ControlTree.Build
import Midend.Event
import Midend.Slots

namespace Midend

structure Config where
  verify : Bool := true
  promoteCaptured : Bool := true
  /-- Whether phis and their sources should share slots. -/
  coalesce : Bool := true
  /-- How many sweeps a dominator computation may take. -/
  dominanceLimit : Nat := 1024
deriving DecidableEq, Repr, Inhabited

namespace Config

def standard : Config := {}

def verifying : Config := { standard with verify := true }

def release : Config := { standard with verify := false }

end Config

structure Context where
  config : Config := {}
  events : EventLog := {}
  slots : OrderedMap FuncId SlotAssignment := ∅
  trees : OrderedMap FuncId ControlTree := ∅
deriving DecidableEq, Repr, Inhabited

namespace Context

def record (c : Context) (e : Event) : Context := { c with events := c.events.record e }

def setSlots (c : Context) (id : FuncId) (a : SlotAssignment) : Context :=
  { c with slots := c.slots.insert id a }

def setTree (c : Context) (id : FuncId) (t : ControlTree) : Context :=
  { c with trees := c.trees.insert id t }

def invalidate (c : Context) (id : FuncId) : Context :=
  { c with slots := c.slots.erase id, trees := c.trees.erase id }

end Context

end Midend
