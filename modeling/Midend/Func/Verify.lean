import Midend.Edit.Basic

/-!
The verifier. It goes over every block, phi, instruction and value and lists every breach that it
finds:

* each block ends in a terminator, and a terminator stands last;
* instructions and phis belong to the block that lists them;
* targets, operands, sources and results are live, and results name what defines them;
* use lists agree with operands and sources, both ways;
* in reachable blocks each use is dominated by its definition, and each phi has exactly one source
  for each reachable predecessor.
-/

namespace Midend.Func

def found (f : Func) (block : Option BlockId) (inst : Option InstId) (breach : Breach) :
    Violation :=
  { function := f.name, block, inst, breach }

/-- Whether what a definition names is done on entry to a position of a reachable block, or at the
end of the block when no position is given. -/
def definedAt (f : Func) (dom : Dominance) (b : BlockId) (position : Option Nat) : Definition → Bool
  | .argument _ | .const _ | .upvalue _ _ => true
  | .phi p =>
    match f.phis.get? p with
    | none => false
    | some data => dom.dominates data.block b
  | .inst i =>
    match f.insts.get? i with
    | none => false
    | some data =>
      if data.block ≠ b then dom.strictlyDominates data.block b
      else
        match position with
        | none => true
        | some position =>
          match (f.blocks.get? b).bind (·.position i) with
          | none => false
          | some defined => defined < position

/-- Whether a value is live and its definition done at a position of a reachable block. -/
def availableAt (f : Func) (dom : Dominance) (v : ValueId) (b : BlockId) (position : Option Nat) :
    Bool :=
  match f.values.get? v with
  | none => false
  | some value => f.definedAt dom b position value.definition

def endBreaches (f : Func) (b : BlockId) (data : Block) : List Violation :=
  match data.last with
  | none => [f.found (some b) none .emptyBlock]
  | some last =>
    match f.insts.get? last with
    | none => []
    | some inst => if inst.isTerminator then [] else [f.found (some b) (some last) .noTerminator]

def sourceBreaches (f : Func) (dom : Option Dominance) (p : PhiId) (data : Phi) (pred : BlockId)
    (source : ValueId) : List Breach :=
  match f.values.get? source with
  | none => [.deadSource p source]
  | some value =>
    (if value.usesBy (.phi p) = data.holds source then [] else [.sourceUses p source]) ++
    match dom with
    | none => []
    | some dom =>
      if dom.isReachable pred && !f.availableAt dom source pred none then
        [.undominatedSource p source pred]
      else []

/-- How the sources of a phi differ from the reachable predecessors of its block. -/
def keyBreaches (f : Func) (dom : Dominance) (b : BlockId) (p : PhiId) (data : Phi) : List Breach :=
  if dom.isReachable b then
    let preds := (f.predecessors b).filter dom.isReachable
    let keys := data.sources.keys
    (preds.filter fun q => !keys.contains q).map (.missingSource p) ++
      (keys.filter fun q => !preds.contains q).map (.extraSource p)
  else []

def phiBreaches (f : Func) (dom : Option Dominance) (b : BlockId) (p : PhiId) : List Breach :=
  match f.phis.get? p with
  | none => [.deadPhi p]
  | some data =>
    (if data.block = b then [] else [.phiOwner p data.block]) ++
    (if (f.values.get? data.result).map (·.definition) = some (.phi p) then []
      else [.brokenPhiResult p data.result]) ++
    data.sources.toList.flatMap (fun s => f.sourceBreaches dom p data s.1 s.2) ++
    match dom with
    | none => []
    | some dom => f.keyBreaches dom b p data

def resultBreaches (f : Func) (i : InstId) : Option ValueId → List Breach
  | none => []
  | some result =>
    match f.values.get? result with
    | none => [.deadResult result]
    | some value =>
      if value.definition = .inst i then [] else [.foreignResult result value.definition]

def operandBreaches (f : Func) (dom : Option Dominance) (b : BlockId) (position : Nat) (i : InstId)
    (inst : Inst) (operand : ValueId) : List Breach :=
  match f.values.get? operand with
  | none => [.deadOperand operand]
  | some value =>
    (if value.usesBy (.inst i) = inst.holds operand then []
      else [.operandUses operand (value.usesBy (.inst i)) (inst.holds operand)]) ++
    match dom with
    | none => []
    | some dom =>
      if dom.isReachable b && !f.availableAt dom operand b (some position) then
        [.undominatedOperand operand]
      else []

def instBreaches (f : Func) (dom : Option Dominance) (b : BlockId) (data : Block) (position : Nat)
    (i : InstId) : List Breach :=
  match f.insts.get? i with
  | none => [.deadInst]
  | some inst =>
    (if inst.block = b then [] else [.instOwner inst.block]) ++
    (if inst.isTerminator && position + 1 ≠ data.insts.length then [.terminatorNotLast] else []) ++
    (inst.opcode.targets.filter fun t => !f.hasBlock t).map .deadTarget ++
    f.resultBreaches i inst.result ++
    inst.operands.flatMap (f.operandBreaches dom b position i inst)

def blockViolations (f : Func) (dom : Option Dominance) (b : BlockId) : List Violation :=
  match f.blocks.get? b with
  | none => []
  | some data =>
    f.endBreaches b data ++
    data.phis.flatMap (fun p => (f.phiBreaches dom b p).map (f.found (some b) none)) ++
    data.insts.zipIdx.flatMap fun e =>
      (f.instBreaches dom b data e.2 e.1).map (f.found (some b) (some e.1))

def originViolations (f : Func) (v : ValueId) : Definition → List Violation
  | .inst i =>
    if (f.insts.get? i).bind (·.result) = some v then []
    else [f.found none (some i) (.orphanOfInst v)]
  | .phi p =>
    if (f.phis.get? p).map (·.result) = some v then []
    else [f.found none none (.orphanOfPhi v p)]
  | _ => []

/-- How often a live user holds a value. -/
def heldBy (f : Func) (v : ValueId) : User → Option Nat
  | .inst i => (f.insts.get? i).map (·.holds v)
  | .phi p => (f.phis.get? p).map (·.holds v)

def useViolations (f : Func) (v : ValueId) (user : User) (count : Nat) : List Violation :=
  match f.heldBy v user with
  | none => [f.found none none (.deadUser v user)]
  | some held =>
    if held = count then []
    else [f.found (f.userBlock user).toOption none (.userUses v count user held)]

def valueViolations (f : Func) (v : ValueId) : List Violation :=
  match f.values.get? v with
  | none => []
  | some value =>
    f.originViolations v value.definition ++ value.users.flatMap fun u => f.useViolations v u.1 u.2

/-- Every finding; without dominance the checks that need it are left out, and that is a finding of
its own. -/
def violations (f : Func) (dom : Option Dominance) : List Violation :=
  (if dom.isSome then [] else [f.found none none .noDominance]) ++
  (if f.hasBlock f.entry then [] else [f.found (some f.entry) none .noEntry]) ++
  f.blockIds.flatMap (f.blockViolations dom) ++
  f.values.live.flatMap f.valueViolations

end Midend.Func

namespace Midend.Edit

def dominance? : Edit (Option Dominance) := do
  try
    return some (← dominance)
  catch _ => return none

def verify : Edit Unit := do
  let dom ← dominance?
  let violations := (← get).violations dom
  unless violations.isEmpty do throw (.verification violations)

end Midend.Edit
