import Midend.Func.Basic

/-!
Edits: computations that read and change one function and can fail. A failed edit hands back the
function as far as it got. Every edit keeps operand lists, phi sources and use lists in step, and
drops the cached dominance when it changes the block graph.
-/

namespace Midend

/-- A computation on a function that ends in a result or an error, and in a function either way. -/
abbrev Edit := ExceptT Error (StateM Func)

namespace Func

def modifyValue (f : Func) (v : ValueId) (u : Value → Value) : Func :=
  { f with values := f.values.modify v u }

def releaseUses (f : Func) (user : User) (vs : List ValueId) : Func :=
  vs.foldl (fun f v => f.modifyValue v (·.dropUses user)) f

def pushValue (f : Func) (kind : ValueKind) (definition : Definition) : Func :=
  { f with values := f.values.push { kind, definition } }

def invalidateDominance (f : Func) : Func := { f with dominance := none }

end Func

namespace Edit

def apply {α : Type} (e : Edit α) (f : Func) : Except Error α × Func := StateT.run (ExceptT.run e) f

def query {α : Type} (q : Func → Except Error α) : Edit α := do
  let f ← get
  ExceptT.mk (pure (q f))

section Apply

variable {α β : Type}

@[simp]
theorem apply_pure (a : α) (f : Func) : (pure a : Edit α).apply f = (.ok a, f) := rfl

@[simp]
theorem apply_throw (err : Error) (f : Func) : (throw err : Edit α).apply f = (.error err, f) := rfl

@[simp]
theorem apply_get (f : Func) : (get : Edit Func).apply f = (.ok f, f) := rfl

@[simp]
theorem apply_modify (u : Func → Func) (f : Func) :
    (modify u : Edit PUnit).apply f = (.ok ⟨⟩, u f) := rfl

@[simp]
theorem apply_modifyGet (u : Func → α × Func) (f : Func) :
    (modifyGet u : Edit α).apply f = (.ok (u f).1, (u f).2) := rfl

@[simp]
theorem apply_query (q : Func → Except Error α) (f : Func) : (query q).apply f = (q f, f) := rfl

theorem apply_bind (e : Edit α) (k : α → Edit β) (f : Func) :
    (e >>= k).apply f =
      match e.apply f with
      | (.ok a, g) => (k a).apply g
      | (.error err, g) => (.error err, g) := by
  change (match e f with | (r, g) => ExceptT.bindCont k r g) = _
  unfold apply StateT.run ExceptT.run
  rcases e f with ⟨_ | _, _⟩ <;> rfl

theorem apply_map (u : α → β) (e : Edit α) (f : Func) :
    (u <$> e).apply f = ((e.apply f).1.map u, (e.apply f).2) := by
  rw [← bind_pure_comp, apply_bind]
  rcases e.apply f with ⟨_ | _, _⟩ <;> rfl

end Apply

def newValue (kind : ValueKind) (definition : Definition) : Edit ValueId :=
  modifyGet fun f => (f.values.next, f.pushValue kind definition)

def addArgument : Edit ValueId := do
  let v ← newValue .value (.argument (← get).arguments.length)
  modify fun f => { f with arguments := f.arguments ++ [v] }
  return v

def setVariadic (on : Bool) : Edit Unit := modify fun f => { f with variadic := on }

def addUpvalue (capture : Capture) : Edit ValueId := do
  let v ← newValue capture.kind (.upvalue capture ((← get).upvalues capture).length)
  modify fun f =>
    match capture with
    | .byAddress => { f with openUpvalues := f.openUpvalues ++ [v] }
    | .byCopy => { f with closedUpvalues := f.closedUpvalues ++ [v] }
  return v

/-- The value for a constant of the pool: the one in use if it is still live, or else a new one. -/
def constant (k : ConstId) : Edit ValueId := do
  let f ← get
  match (f.constantValue k).filter f.values.contains with
  | some v => return v
  | none =>
    let v ← newValue .value (.const k)
    modify fun f => { f with constants := f.constants.insert k v }
    return v

/-- The cached dominance, computed now if there is none. -/
def dominance : Edit Dominance := do
  match (← get).dominance with
  | some d => return d
  | none =>
    let d ← query fun f => f.computeDominance f.dominanceLimit
    modify fun f => { f with dominance := some d }
    return d

def invalidateDominance : Edit Unit := modify Func.invalidateDominance

/-- A new limit drops the cached dominance; the same one again does not. -/
def setDominanceLimit (limit : Nat) : Edit Unit :=
  modify fun f =>
    if f.dominanceLimit = limit then f
    else { f with dominanceLimit := limit, dominance := none }

/-- Removes a value even if it is in use. A constant is forgotten with its value. -/
def forceDestroy (v : ValueId) : Edit Unit := do
  let data ← query (·.value v)
  modify fun f =>
    let f := { f with values := f.values.erase v }
    match data.definition with
    | .const k => { f with constants := f.constants.erase k }
    | _ => f

def addPhi (b : BlockId) : Edit PhiId := do
  let _ ← query (·.block b)
  let p := (← get).phis.next
  let result ← newValue .value (.phi p)
  modify fun f =>
    { f with
      phis := f.phis.push { block := b, result }
      blocks := f.blocks.modify b fun d => { d with phis := d.phis ++ [p] } }
  return p

def setPhiSource (p : PhiId) (pred : BlockId) (v : ValueId) : Edit Unit := do
  let _ ← query (·.value v)
  let _ ← query (·.block pred)
  let data ← query (·.phi p)
  modify fun f =>
    let f := { f with
      phis := f.phis.modify p fun d => { d with sources := d.sources.insert pred v } }
    let f := match data.source pred with
      | some old => f.modifyValue old (·.dropUse (.phi p))
      | none => f
    f.modifyValue v (·.addUses (.phi p) 1)

def removePhiSource (p : PhiId) (pred : BlockId) : Edit (Option ValueId) := do
  let data ← query (·.phi p)
  modify fun f =>
    let f := { f with phis := f.phis.modify p fun d => { d with sources := d.sources.erase pred } }
    match data.source pred with
    | some old => f.modifyValue old (·.dropUse (.phi p))
    | none => f
  return data.source pred

/-- Empties the slot of a phi and destroys its result. A phi that is gone already is left alone. -/
def discardPhi (p : PhiId) : Edit Unit := do
  match (← get).phis.get? p with
  | none => return
  | some data =>
    modify fun f => { f with phis := f.phis.erase p }.releaseUses (.phi p) data.sources.values
    forceDestroy data.result

/-- Removes a phi that nothing but itself uses. -/
def removePhi (p : PhiId) : Edit Unit := do
  let data ← query (·.phi p)
  let result ← query (·.value data.result)
  if result.users.any fun u => u.1 != .phi p then
    throw (.valueInUse data.result result.userCount)
  discardPhi p
  modify fun f =>
    { f with
      blocks := f.blocks.modify data.block fun d => { d with phis := d.phis.filter (· ≠ p) } }

def discardInst (i : InstId) : Edit Unit := do
  match (← get).insts.get? i with
  | none => return
  | some data =>
    modify fun f => { f with insts := f.insts.erase i }.releaseUses (.inst i) data.operands
    match data.result with
    | none => return
    | some result => forceDestroy result

def removeInst (i : InstId) : Edit Unit := do
  let data ← query (·.inst i)
  match data.result with
  | none => pure ()
  | some result =>
    let value ← query (·.value result)
    unless value.isUnused do throw (.valueInUse result value.userCount)
  discardInst i
  modify fun f =>
    let f := { f with
      blocks := f.blocks.modify data.block fun d => { d with insts := d.insts.filter (· ≠ i) } }
    if data.isTerminator then f.invalidateDominance else f

def checkOperation (opcode : Opcode) (operands : List ValueId) (f : Func) : Except Error Unit := do
  unless opcode.arity.accepts operands.length do
    throw (.invariant (.operandCount opcode operands.length))
  operands.forM fun v => discard (f.value v)
  if opcode.accessesCell then
    match operands with
    | [] => pure ()
    | cell :: _ =>
      if (← f.value cell).kind ≠ .reference then throw (.invariant (.notReference opcode cell))
  opcode.targets.forM fun b => discard (f.block b)

def place (b : BlockId) (position : Nat) (opcode : Opcode) (operands : List ValueId) (f : Func) :
    InstId × Func :=
  let i := f.insts.next
  let result := opcode.resultKind.map fun _ => f.values.next
  let f := match opcode.resultKind with
    | some kind => f.pushValue kind (.inst i)
    | none => f
  let f := operands.foldl (fun f v => f.modifyValue v (·.addUses (.inst i) 1)) f
  let f := { f with
    insts := f.insts.push { opcode, operands, result, block := b }
    blocks := f.blocks.modify b fun d => { d with insts := d.insts.insertIdx position i } }
  (i, if opcode.isTerminator then f.invalidateDominance else f)

def insertAt (b : BlockId) (position : Nat) (opcode : Opcode) (operands : List ValueId) :
    Edit InstId := do
  query (checkOperation opcode operands)
  modifyGet (place b position opcode operands)

def append (b : BlockId) (opcode : Opcode) (operands : List ValueId) : Edit InstId := do
  if (← query (·.terminator b)).isSome then throw (.terminatorExists b)
  let data ← query (·.block b)
  insertAt b data.insts.length opcode operands

/-- Adds an instruction before another one. Terminators cannot be inserted. -/
def insertBefore (before : InstId) (opcode : Opcode) (operands : List ValueId) : Edit InstId := do
  if opcode.isTerminator then throw (.invariant (.insertsTerminator opcode before))
  let data ← query (·.inst before)
  match (← query (·.block data.block)).position before with
  | none => throw (.invariant (.notSequenced before data.block))
  | some position => insertAt data.block position opcode operands

def setOperand (i : InstId) (index : Nat) (v : ValueId) : Edit Unit := do
  let _ ← query (·.value v)
  match (← query (·.inst i)).operands[index]? with
  | none => throw (.invariant (.noOperand i index))
  | some old =>
    if old ≠ v then
      modify fun f =>
        let f := f.modifyValue old (·.dropUse (.inst i))
        let f := f.modifyValue v (·.addUses (.inst i) 1)
        { f with
          insts := f.insts.modify i fun d => { d with operands := d.operands.set index v } }

/-- Replaces `old` by `new` in one user and returns how many places held it. -/
def replaceIn (old new : ValueId) (user : User) (count : Nat) : Edit Nat := do
  let swap (v : ValueId) : ValueId := if v = old then new else v
  let replaced ← match user with
    | .inst i => do
      let data ← query (·.inst i)
      modify fun f =>
        { f with insts := f.insts.modify i fun d => { d with operands := d.operands.map swap } }
      pure (data.holds old)
    | .phi p => do
      let data ← query (·.phi p)
      modify fun f =>
        { f with phis := f.phis.modify p fun d => { d with sources := d.sources.mapValues swap } }
      pure (data.holds old)
  modify fun f =>
    (f.modifyValue old (·.dropUses user)).modifyValue new (·.addUses user count)
  return replaced

/-- Makes every user of `old` use `new` instead and returns how many places changed. -/
def replaceAllUses (old new : ValueId) : Edit Nat := do
  if old = new then return 0
  let _ ← query (·.value new)
  let data ← query (·.value old)
  data.users.foldlM (fun n u => return n + (← replaceIn old new u.1 u.2)) 0

end Edit

end Midend
