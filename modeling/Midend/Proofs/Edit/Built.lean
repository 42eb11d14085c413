import Midend.Proofs.Edit.Removal

namespace Midend

/-- An editing call. Construction by operation is `append` or `appendValue` with the operation's
operands. Destroying a value that is in use is not among them. -/
inductive Call where
  | addArgument
  | setVariadic (on : Bool)
  | addUpvalue (capture : Capture)
  | constant (k : ConstId)
  | addBlock
  | setEntry (b : BlockId)
  | retarget (b old new : BlockId)
  | removeBlock (b : BlockId)
  | removeUnreachable
  | append (b : BlockId) (opcode : Opcode) (operands : List ValueId)
  | appendValue (b : BlockId) (opcode : Opcode) (operands : List ValueId)
  | vararg (b : BlockId)
  | insertBefore (before : InstId) (opcode : Opcode) (operands : List ValueId)
  | removeInst (i : InstId)
  | setOperand (i : InstId) (index : Nat) (v : ValueId)
  | replaceAllUses (old new : ValueId)
  | addPhi (b : BlockId)
  | setPhiSource (p : PhiId) (pred : BlockId) (v : ValueId)
  | removePhiSource (p : PhiId) (pred : BlockId)
  | removePhi (p : PhiId)
  | dominance
  | invalidateDominance
  | setDominanceLimit (limit : Nat)
  | verify
deriving DecidableEq, Repr

namespace Call

def edit : Call → Edit Unit
  | addArgument => discard Edit.addArgument
  | setVariadic on => Edit.setVariadic on
  | addUpvalue capture => discard (Edit.addUpvalue capture)
  | constant k => discard (Edit.constant k)
  | addBlock => discard Edit.addBlock
  | setEntry b => Edit.setEntry b
  | retarget b old new => discard (Edit.retarget b old new)
  | removeBlock b => Edit.removeBlock b
  | removeUnreachable => discard Edit.removeUnreachable
  | append b opcode operands => discard (Edit.append b opcode operands)
  | appendValue b opcode operands => discard (Edit.appendValue b opcode operands)
  | vararg b => discard (Edit.vararg b)
  | insertBefore before opcode operands => discard (Edit.insertBefore before opcode operands)
  | removeInst i => Edit.removeInst i
  | setOperand i index v => Edit.setOperand i index v
  | replaceAllUses old new => discard (Edit.replaceAllUses old new)
  | addPhi b => discard (Edit.addPhi b)
  | setPhiSource p pred v => Edit.setPhiSource p pred v
  | removePhiSource p pred => discard (Edit.removePhiSource p pred)
  | removePhi p => Edit.removePhi p
  | dominance => discard Edit.dominance
  | invalidateDominance => Edit.invalidateDominance
  | setDominanceLimit limit => Edit.setDominanceLimit limit
  | verify => Edit.verify

/-- The function that a call leaves, whether it succeeds or not. -/
def run (c : Call) (f : Func) : Func := (c.edit.apply f).2

theorem run_sound {f : Func} (h : f.Sound) (c : Call) : (c.run f).Sound := by
  cases c <;> simp only [run, edit, Edit.apply_discard]
  case addArgument => exact Edit.addArgument_sound h
  case setVariadic on => exact Edit.setVariadic_sound h on
  case addUpvalue capture => exact Edit.addUpvalue_sound h capture
  case constant k => exact Edit.constant_sound h k
  case addBlock => exact Edit.addBlock_sound h
  case setEntry b => exact Edit.setEntry_sound h b
  case retarget b old new => exact Edit.retarget_sound h b old new
  case removeBlock b => exact Edit.removeBlock_sound h b
  case removeUnreachable => exact Edit.removeUnreachable_sound h
  case append b opcode operands => exact Edit.append_sound h b opcode operands
  case appendValue b opcode operands =>
    rw [Edit.appendValue_snd]
    exact Edit.append_sound h b opcode operands
  case vararg b => exact Edit.vararg_sound h b
  case insertBefore before opcode operands => exact Edit.insertBefore_sound h before opcode operands
  case removeInst i => exact Edit.removeInst_sound h i
  case setOperand i index v => exact Edit.setOperand_sound h i index v
  case replaceAllUses old new => exact Edit.replaceAllUses_sound h old new
  case addPhi b => exact Edit.addPhi_sound h b
  case setPhiSource p pred v => exact Edit.setPhiSource_sound h p pred v
  case removePhiSource p pred => exact Edit.removePhiSource_sound h p pred
  case removePhi p => exact Edit.removePhi_sound h p
  case dominance => exact Edit.dominance_sound h
  case invalidateDominance => exact h.invalidateDominance
  case setDominanceLimit limit => exact Edit.setDominanceLimit_sound h limit
  case verify => exact Edit.verify_sound h

/-- What a call can do to instructions, phis and values, under the conditions that it checks. The
removal of unreachable blocks is not among these. -/
inductive Effect (f : Func) : Func → Prop where
  | same : Effect f f
  | newValue (kind : ValueKind) (definition : Definition) : Effect f (f.pushValue kind definition)
  | retarget (term : InstId) (old new : BlockId) : Effect f (f.withTarget term old new)
  | removeBlock (b : BlockId) : Effect f ((Edit.removeBlock b).apply f).2
  | place (b : BlockId) (position : Nat) {opcode : Opcode} {operands : List ValueId}
      (check : Edit.checkOperation opcode operands f = .ok ()) :
      Effect f (Edit.place b position opcode operands f).2
  | removeInst {i : InstId} {inst : Inst}
      (unheld : ∀ v u, inst.result = some v → f.held v u = 0) :
      Effect f ((f.unlistInst inst.block i).dropInst i inst)
  | setOperand {i : InstId} {inst : Inst} {index : Nat} {old v : ValueId}
      (get : f.insts.get? i = some inst) (operand : inst.operands[index]? = some old)
      (live : f.values.contains v = true) : Effect f (f.withOperand i index old v)
  | replace {old new : ValueId} {g : Func} (live : old = new ∨ f.values.contains new = true)
      (replaced : Func.Replaced old new f g) : Effect f g
  | addPhi (b : BlockId) : Effect f (f.withPhi b)
  | setSource {p : PhiId} {phi : Phi} {v : ValueId} (pred : BlockId)
      (get : f.phis.get? p = some phi) (live : f.values.contains v = true) :
      Effect f (f.withSource p (phi.source pred) pred v)
  | removeSource {p : PhiId} {phi : Phi} (pred : BlockId) (get : f.phis.get? p = some phi) :
      Effect f (f.withoutSource p (phi.source pred) pred)
  | removePhi {p : PhiId} {phi : Phi} (unheld : ∀ u, u ≠ .phi p → f.held phi.result u = 0) :
      Effect f ((f.unlistPhi phi.block p).dropPhi p phi)

def Affects (f g : Func) : Prop :=
  ∃ h, Effect f h ∧ g.insts = h.insts ∧ g.phis = h.phis ∧ g.values = h.values

theorem run_affects {f : Func} (h : f.Sound) {c : Call} (hc : c ≠ .removeUnreachable) :
    Affects f (c.run f) := by
  have hsame : Affects f f := ⟨f, .same, rfl, rfl, rfl⟩
  have happend : ∀ b opcode operands, Affects f ((Edit.append b opcode operands).apply f).2 := by
    intro b opcode operands
    refine (Edit.append_yields f b opcode operands).imp ?_ |>.snd hsame
    rintro i g ⟨data, -, -, hcheck, hg⟩
    obtain ⟨-, rfl⟩ := Prod.mk.inj hg
    exact ⟨_, .place b data.insts.length hcheck, rfl, rfl, rfl⟩
  have hdominance : Affects f (Edit.dominance.apply f).2 := by
    refine (Edit.dominance_yields h.coherent).imp ?_ |>.snd hsame
    rintro d g ⟨-, rfl⟩
    exact ⟨f, .same, rfl, rfl, rfl⟩
  cases c <;> simp only [run, edit, Edit.apply_discard]
  case addArgument => exact ⟨_, .newValue .value (.argument f.arguments.length), rfl, rfl, rfl⟩
  case setVariadic on => exact ⟨f, .same, rfl, rfl, rfl⟩
  case addUpvalue capture =>
    cases capture with
    | byAddress => exact ⟨_, .newValue .reference (.upvalue .byAddress _), rfl, rfl, rfl⟩
    | byCopy => exact ⟨_, .newValue .value (.upvalue .byCopy _), rfl, rfl, rfl⟩
  case constant k =>
    simp only [Edit.constant, Edit.apply_bind, Edit.apply_get]
    cases (f.constantValue k).filter f.values.contains with
    | some v => exact hsame
    | none => exact ⟨_, .newValue .value (.const k), rfl, rfl, rfl⟩
  case addBlock => exact ⟨f, .same, rfl, rfl, rfl⟩
  case setEntry b =>
    simp only [Edit.setEntry, Edit.apply_bind, Edit.apply_query]
    cases f.block b with
    | error err => exact hsame
    | ok data => exact ⟨f, .same, rfl, rfl, rfl⟩
  case retarget b old new =>
    refine (Edit.retarget_yields f b old new).imp ?_ |>.snd hsame
    rintro _ g ⟨data, term, inst, -, -, -, rfl⟩
    refine ⟨_, .retarget term old new, ?_⟩
    split <;> exact ⟨rfl, rfl, rfl⟩
  case removeBlock b => exact ⟨_, .removeBlock b, rfl, rfl, rfl⟩
  case removeUnreachable => exact absurd rfl hc
  case append b opcode operands => exact happend b opcode operands
  case appendValue b opcode operands =>
    rw [Edit.appendValue_snd]
    exact happend b opcode operands
  case vararg b =>
    rw [Edit.vararg_apply, Edit.appendValue_snd]
    exact happend b _ []
  case insertBefore before opcode operands =>
    refine (Edit.insertBefore_yields f before opcode operands).imp ?_ |>.snd hsame
    rintro i g ⟨inst, data, position, -, -, -, -, hcheck, hg⟩
    obtain ⟨-, rfl⟩ := Prod.mk.inj hg
    exact ⟨_, .place inst.block position hcheck, rfl, rfl, rfl⟩
  case removeInst i =>
    refine (Edit.removeInst_yields f i fun data v hi hv =>
      h.linked.inst_result i data v hi hv).imp ?_ |>.snd hsame
    rintro _ g ⟨inst, hi, hunused, rfl⟩
    refine ⟨(f.unlistInst inst.block i).dropInst i inst, .removeInst fun v u hv => ?_, ?_⟩
    · obtain ⟨val, hval, -⟩ := h.linked.inst_result i inst v hi hv
      rw [← h.uses.uses v val u hval]
      exact (Value.isUnused_iff (h.uses.counted v val hval)).1 (hunused v val hv hval) u
    · split <;> exact ⟨rfl, rfl, rfl⟩
  case setOperand i index v =>
    refine (Edit.setOperand_yields f i index v).imp ?_ |>.snd hsame
    rintro _ g ⟨val, inst, old, hv, hi, ho, rfl⟩
    split
    · exact hsame
    · exact ⟨_, .setOperand hi ho (Option.isSome_iff_exists.2 ⟨val, hv⟩), rfl, rfl, rfl⟩
  case replaceAllUses old new =>
    refine (Edit.replaceAllUses_yields h.uses old new).imp ?_ |>.snd hsame
    rintro _ g ⟨hnew, hr⟩
    exact ⟨g, .replace (hnew.imp_right Option.isSome_iff_exists.2) hr, rfl, rfl, rfl⟩
  case addPhi b =>
    refine (Edit.addPhi_yields f b).imp ?_ |>.snd hsame
    rintro _ g ⟨data, -, -, rfl⟩
    exact ⟨_, .addPhi b, rfl, rfl, rfl⟩
  case setPhiSource p pred v =>
    refine (Edit.setPhiSource_yields f p pred v).imp ?_ |>.snd hsame
    rintro _ g ⟨val, data, phi, hv, -, hp, rfl⟩
    exact ⟨_, .setSource pred hp (Option.isSome_iff_exists.2 ⟨val, hv⟩), rfl, rfl, rfl⟩
  case removePhiSource p pred =>
    refine (Edit.removePhiSource_yields f p pred).imp ?_ |>.snd hsame
    rintro _ g ⟨phi, hp, -, rfl⟩
    exact ⟨_, .removeSource pred hp, rfl, rfl, rfl⟩
  case removePhi p =>
    refine (Edit.removePhi_yields f p fun data hp => h.linked.phi_result p data hp).imp ?_ |>.snd
      hsame
    rintro _ g ⟨phi, val, hp, hval, husers, rfl⟩
    refine ⟨_, .removePhi fun u hu => ?_, rfl, rfl, rfl⟩
    rw [← h.uses.uses _ val u hval]
    by_contra hpos
    exact hu (husers _ ((Value.mem_users_iff (h.uses.counted _ val hval)).2
      ⟨rfl, Nat.pos_of_ne_zero hpos⟩))
  case dominance => exact hdominance
  case invalidateDominance => exact ⟨f, .same, rfl, rfl, rfl⟩
  case setDominanceLimit limit =>
    simp only [Edit.setDominanceLimit, Edit.apply_modify]
    split
    · exact hsame
    · exact ⟨f, .same, rfl, rfl, rfl⟩
  case verify =>
    rw [Edit.verify_apply]
    exact hdominance

end Call

namespace Func

/-- A function that a sequence of calls makes from a new one. -/
def Built (f : Func) : Prop :=
  ∃ name, ∃ calls : List Call, f = calls.foldl (fun f c => c.run f) (Func.new name)

theorem foldl_run_sound {f : Func} (h : f.Sound) (calls : List Call) :
    (calls.foldl (fun f c => c.run f) f).Sound := by
  induction calls generalizing f with
  | nil => exact h
  | cons c calls ih => exact ih (c.run_sound h)

theorem Built.sound {f : Func} (h : f.Built) : f.Sound := by
  obtain ⟨name, calls, rfl⟩ := h
  exact foldl_run_sound (new_sound name) calls

theorem Built.run {f : Func} (h : f.Built) (c : Call) : (c.run f).Built := by
  obtain ⟨name, calls, rfl⟩ := h
  exact ⟨name, calls ++ [c], by rw [List.foldl_append]; rfl⟩

end Func

end Midend
