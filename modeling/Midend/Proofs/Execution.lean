import Mathlib.Data.List.Chain
import Mathlib.Logic.Function.Basic
import Midend.Proofs.Func.Code

/-!
Executions along a path of blocks. What instructions compute is left to a machine; here values are
written to and read from locations. On an edge all sources of the phis are read before any result is
written, and each instruction reads its operands before its result is written. Every read is
recorded.
-/

namespace Midend

/-- What instructions do with values of type `V` and a state of type `S`. -/
structure Machine (V S : Type) where
  /-- What an operand of an operation is taken for, given what is read at its place. -/
  view : Opcode → ValueId → S → V → V
  /-- The result of an instruction and the state after it. -/
  step : InstId → Opcode → List V → S → V × S

/-- What was read at one go: the operands of an instruction or the source of a phi. -/
inductive Read (V : Type) where
  | inst (i : InstId) (operands : List V)
  | phi (p : PhiId) (source : V)

/-- The contents of the locations, the state of the machine, and the reads, the latest first. -/
structure Execution (L V S : Type) where
  env : L → V
  state : S
  reads : List (Read V)

namespace Execution

variable {L V S : Type} [DecidableEq L]

def write (x : Execution L V S) (l : L) (a : V) : Execution L V S :=
  { x with env := Function.update x.env l a }

def writeAll (place : ValueId → L) (ws : List (ValueId × V)) (x : Execution L V S) :
    Execution L V S :=
  ws.foldl (fun x w => x.write (place w.1) w.2) x

/-- The operands of an instruction as the machine sees them. -/
def operands (m : Machine V S) (place : ValueId → L) (inst : Inst) (x : Execution L V S) :
    List V :=
  inst.operands.map fun v => m.view inst.opcode v x.state (x.env (place v))

def runInst (m : Machine V S) (place : ValueId → L) (x : Execution L V S) (e : InstId × Inst) :
    Execution L V S :=
  let args := x.operands m place e.2
  let out := m.step e.1 e.2.opcode args x.state
  let y : Execution L V S := ⟨x.env, out.2, .inst e.1 args :: x.reads⟩
  match e.2.result with
  | none => y
  | some r => y.write (place r) out.1

/-- The phis that have a source for `pred`, with what stands there. -/
def taken (place : ValueId → L) (pred : BlockId) (phis : List (PhiId × Phi))
    (x : Execution L V S) : List ((PhiId × Phi) × V) :=
  phis.filterMap fun e => (e.2.source pred).map fun v => (e, x.env (place v))

def runPhis (place : ValueId → L) (pred : BlockId) (phis : List (PhiId × Phi))
    (x : Execution L V S) : Execution L V S :=
  let taken := x.taken place pred phis
  writeAll place (taken.map fun t => (t.1.2.result, t.2))
    { x with reads := (taken.map fun t => .phi t.1.1 t.2).reverse ++ x.reads }

def follow (f : Func) (m : Machine V S) (place : ValueId → L) :
    BlockId → List BlockId → Execution L V S → Execution L V S
  | _, [], x => x
  | b, c :: path, x =>
    follow f m place c path ((f.instsOf c).foldl (runInst m place) (x.runPhis place b (f.phisOf c)))

/-- Executes a function from its entry along a path that goes on with `path`. The arguments are
written at the start; the phis of the entry are not evaluated then. -/
def run (f : Func) (m : Machine V S) (place : ValueId → L) (argument : ValueId → V)
    (start : Execution L V S) (path : List BlockId) : Execution L V S :=
  let x := start.writeAll place (f.arguments.map fun v => (v, argument v))
  follow f m place f.entry path ((f.instsOf f.entry).foldl (runInst m place) x)

section Effects

variable {m : Machine V S} {place : ValueId → L} {x : Execution L V S} {e : InstId × Inst}
  {pred : BlockId} {phis : List (PhiId × Phi)} {ws : List (ValueId × V)}

@[simp]
theorem state_runInst :
    (x.runInst m place e).state = (m.step e.1 e.2.opcode (x.operands m place e.2) x.state).2 := by
  unfold runInst
  split <;> rfl

@[simp]
theorem reads_runInst :
    (x.runInst m place e).reads = .inst e.1 (x.operands m place e.2) :: x.reads := by
  unfold runInst
  split <;> rfl

theorem env_runInst {x : Execution ValueId V S} {v : ValueId} :
    (x.runInst m id e).env v = if e.2.result = some v then
      (m.step e.1 e.2.opcode (x.operands m id e.2) x.state).1 else x.env v := by
  unfold runInst
  cases hr : e.2.result with
  | none => rfl
  | some r =>
    by_cases hv : v = r
    · simp [write, hv]
    · simp [write, hv, Ne.symm hv]

@[simp]
theorem state_writeAll : (x.writeAll place ws).state = x.state := by
  unfold writeAll
  induction ws generalizing x with
  | nil => rfl
  | cons w ws ih => exact ih

@[simp]
theorem reads_writeAll : (x.writeAll place ws).reads = x.reads := by
  unfold writeAll
  induction ws generalizing x with
  | nil => rfl
  | cons w ws ih => exact ih

@[simp]
theorem state_runPhis : (x.runPhis place pred phis).state = x.state := by
  unfold runPhis
  simp

theorem env_writeAll_of_notMem {x : Execution ValueId V S} {v : ValueId}
    (h : ∀ w ∈ ws, w.1 ≠ v) : (x.writeAll id ws).env v = x.env v := by
  unfold writeAll
  induction ws generalizing x with
  | nil => rfl
  | cons w ws ih =>
    obtain ⟨hw, hws⟩ := List.forall_mem_cons.1 h
    rw [List.foldl_cons, ih hws]
    exact Function.update_of_ne hw.symm _ _

theorem env_writeAll_congr {x z : Execution ValueId V S} {v : ValueId} (h : x.env v = z.env v) :
    (x.writeAll id ws).env v = (z.writeAll id ws).env v := by
  unfold writeAll
  induction ws generalizing x z with
  | nil => exact h
  | cons w ws ih =>
    refine ih ?_
    by_cases hv : v = w.1
    · simp [write, hv]
    · simp [write, hv, h]

theorem env_writeAll_of_mem {x : Execution ValueId V S} {w : ValueId × V} (hw : w ∈ ws)
    (h : ∀ w' ∈ ws, w'.1 = w.1 → w' = w) : (x.writeAll id ws).env w.1 = w.2 := by
  induction ws generalizing x with
  | nil => simp at hw
  | cons u ws ih =>
    by_cases hin : w ∈ ws
    · exact ih hin fun w' hw' => h w' (List.mem_cons_of_mem _ hw')
    · obtain rfl := (List.mem_cons.1 hw).resolve_right hin
      have hrest : ∀ w' ∈ ws, w'.1 ≠ w.1 := by
        intro w' hw' heq
        exact hin (h w' (List.mem_cons_of_mem _ hw') heq ▸ hw')
      have hskip := env_writeAll_of_notMem (x := x.write w.1 w.2) hrest
      exact hskip.trans (Function.update_self ..)

omit [DecidableEq L] in
theorem mem_taken {t : (PhiId × Phi) × V} : t ∈ x.taken place pred phis ↔
    t.1 ∈ phis ∧ ∃ v, t.1.2.source pred = some v ∧ x.env (place v) = t.2 := by
  rw [taken, List.mem_filterMap]
  constructor
  · rintro ⟨e, he, ht⟩
    obtain ⟨v, hv, rfl⟩ := Option.map_eq_some_iff.1 ht
    exact ⟨he, v, hv, rfl⟩
  · rintro ⟨ht, v, hv, hval⟩
    exact ⟨t.1, ht, by rw [hv, Option.map_some, hval]⟩

theorem env_runPhis_of_ne {x : Execution ValueId V S} {v : ValueId}
    (h : ∀ e ∈ phis, e.2.result ≠ v) : (x.runPhis id pred phis).env v = x.env v := by
  refine (env_writeAll_of_notMem fun w hw => ?_).trans rfl
  obtain ⟨t, ht, rfl⟩ := List.mem_map.1 hw
  exact h t.1 (mem_taken.1 ht).1

theorem env_runPhis_cases (x : Execution ValueId V S) (pred : BlockId) (phis : List (PhiId × Phi))
    (v : ValueId) : (x.runPhis id pred phis).env v = x.env v ∨ ∃ e ∈ phis, ∃ w,
      e.2.result = v ∧ e.2.source pred = some w ∧ (x.runPhis id pred phis).env v = x.env w := by
  have hwrite : ∀ (ws : List (ValueId × V)) (x : Execution ValueId V S),
      (x.writeAll id ws).env v = x.env v ∨ ∃ w ∈ ws, w.1 = v ∧ (x.writeAll id ws).env v = w.2 := by
    intro ws
    induction ws with
    | nil => exact fun x => .inl rfl
    | cons u ws ih =>
      intro x
      rcases ih (x.write u.1 u.2) with heq | ⟨w, hw, hv, heq⟩
      · by_cases hu : u.1 = v
        · refine .inr ⟨u, List.mem_cons_self, hu, heq.trans ?_⟩
          subst hu
          exact Function.update_self ..
        · exact .inl (heq.trans (Function.update_of_ne (Ne.symm hu) _ _))
      · exact .inr ⟨w, List.mem_cons_of_mem _ hw, hv, heq⟩
  rcases hwrite _ { x with reads := _ } with heq | ⟨w, hw, hv, heq⟩
  · exact .inl heq
  · obtain ⟨t, ht, rfl⟩ := List.mem_map.1 hw
    obtain ⟨he, u, hu, hval⟩ := mem_taken.1 ht
    exact .inr ⟨t.1, he, u, hv, hu, heq.trans hval.symm⟩

theorem env_runPhis_of_mem {x : Execution ValueId V S} {e : PhiId × Phi} {v : ValueId}
    (he : e ∈ phis) (hdistinct : ∀ e' ∈ phis, e'.2.result = e.2.result → e' = e)
    (hv : e.2.source pred = some v) : (x.runPhis id pred phis).env e.2.result = x.env v := by
  have ht : (e, x.env v) ∈ x.taken id pred phis := mem_taken.2 ⟨he, v, hv, rfl⟩
  refine env_writeAll_of_mem (List.mem_map.2 ⟨_, ht, rfl⟩) fun w hw heq => ?_
  obtain ⟨⟨e', c⟩, ht', rfl⟩ := List.mem_map.1 hw
  obtain ⟨he', v', hv', hc⟩ := mem_taken.1 ht'
  obtain rfl := hdistinct e' he' heq
  obtain rfl := Option.some.inj (hv.symm.trans hv')
  exact Prod.ext rfl hc.symm

end Effects

end Execution

/-- What stands in an environment at the start: constants and upvalues have their values, and all
else is undefined. -/
def Func.initial {V : Type} (f : Func) (undefined : V) (atom : ValueId → V) (v : ValueId) : V :=
  match (f.values.get? v).map Value.definition with
  | some (.const _) | some (.upvalue _ _) => atom v
  | _ => undefined

/-- A path along the terminators, given by the blocks after the entry. -/
def Func.IsPath (f : Func) (path : List BlockId) : Prop :=
  (f.entry :: path).IsChain fun b c => c ∈ f.successors b

end Midend
