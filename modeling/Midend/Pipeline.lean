import Midend.Func.Verify
import Midend.Pass
import Midend.Program

namespace Midend

structure Pipeline (σ : Type) where
  /-- The most sweeps to make. -/
  limit : Nat := 5
  passes : List (Pass σ) := []

structure RunState (σ : Type) where
  program : Program
  context : Context
  memory : σ

/-- A run; a failed one keeps what it has changed. -/
abbrev Run (σ : Type) := ExceptT Error (StateM (RunState σ))

namespace Run

variable {σ : Type}

def record (e : Event) : Run σ Unit := modify fun s => { s with context := s.context.record e }

def setup {α : Type} (w : Setup σ α) : Run σ α := do
  let s ← get
  let (result, t) := StateT.run (ExceptT.run w) ⟨s.context, s.memory⟩
  set { s with context := t.context, memory := t.memory }
  ExceptT.mk (pure result)

def visit {α : Type} (id : FuncId) (w : Visit σ α) : Run σ α := do
  let s ← get
  match s.program.func id with
  | .error err => throw err
  | .ok func =>
    let (result, t) := StateT.run (ExceptT.run w) ⟨func, s.context, s.memory⟩
    set (⟨s.program.setFunc id t.func, t.context, t.memory⟩ : RunState σ)
    ExceptT.mk (pure result)

/-- Verifies a function after a pass; a failure is recorded and ends the run. -/
def verify (pass : String) (id : FuncId) : Run σ Unit := do
  try visit id (Visit.edit Edit.verify)
  catch err =>
    record {
      kind := .verificationFailed, func := some id
      message := "after " ++ pass ++ ": " ++ err.message
      pass := some pass }
    throw err

/-- Runs a pass on one function and tells whether the function changed. Results stored for a
changed function are dropped. -/
def passOn (pass : Pass σ) (id : FuncId) : Run σ Bool := do
  if !pass.applies id (← get).context then return false
  let changed ← visit id (pass.visit id)
  if changed then modify fun s => { s with context := s.context.invalidate id }
  if (← get).context.config.verify then verify pass.name id
  return changed

def passOnAll (pass : Pass σ) (ids : List FuncId) : Run σ Nat := do
  record { kind := .passStarted, message := pass.name, pass := some pass.name }
  let changed ← ids.filterM (passOn pass)
  record {
    kind := .passCompleted
    message := pass.name ++ " changed " ++ changed.length.repr ++ " function(s)"
    pass := some pass.name }
  return changed.length

/-- Runs every pass once on every function and tells whether anything changed. -/
def sweep (passes : List (Pass σ)) : Run σ Bool := do
  passes.forM fun p => setup p.prepare
  let ids := (← get).program.funcIds
  let changed ← passes.mapM fun p => passOnAll p ids
  passes.forM fun p => setup p.conclude
  return changed.any (· ≠ 0)

/-- Sweeps until nothing changes, at most `left` times, and returns the number of sweeps after
`done` earlier ones. -/
def sweeps (passes : List (Pass σ)) : Nat → Nat → Run σ Nat
  | 0, done => return done
  | left + 1, done => do
    if ← sweep passes then sweeps passes left (done + 1) else return done + 1

end Run

namespace Pipeline

variable {σ : Type}

def standard : Pipeline σ := { passes := Pass.all }

def passNames (p : Pipeline σ) : List String := p.passes.map (·.name)

/-- Runs the pipeline under the dominance limit of the context and returns the number of sweeps. -/
def run (p : Pipeline σ) : Run σ Nat := do
  (← get).program.funcIds.forM fun id => do
    let limit := (← get).context.config.dominanceLimit
    Run.visit id (Visit.edit (Edit.setDominanceLimit limit))
  Run.sweeps p.passes p.limit 0

end Pipeline

end Midend
