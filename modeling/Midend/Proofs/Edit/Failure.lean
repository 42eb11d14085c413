import Midend.Proofs.Edit.Built

/-!
Failed calls. A call looks for what is wrong before its first change. What it does after that could
only fail on a table entry that is missing, and in a function that callers can make none is; so a call
that fails leaves the function as it was, and the removal of unreachable blocks, which checks nothing
beforehand, does not fail.
-/

namespace Midend

inductive Construction where
  | branch (target : BlockId)
  | condBranch (condition : ValueId) (ifTrue ifFalse : BlockId)
  | ret (values : List ValueId)
  | newRef (initial : ValueId)
  | getRef (cell : ValueId)
  | setRef (cell value : ValueId)
  | closure (proto : Nat) (captures : List ValueId)
  | binary (op : BinaryOp) (lhs rhs : ValueId)
  | unary (op : UnaryOp) (operand : ValueId)
  | call (callee : ValueId) (args : List ValueId)
  | vararg
  | select (tuple : ValueId) (index : Nat)
  | makeTuple (elements : List ValueId)
deriving DecidableEq, Repr

def Construction.edit (b : BlockId) : Construction → Edit Unit
  | branch target => discard (Edit.branch b target)
  | condBranch condition ifTrue ifFalse => discard (Edit.condBranch b condition ifTrue ifFalse)
  | ret values => discard (Edit.ret b values)
  | newRef initial => discard (Edit.newRef b initial)
  | getRef cell => discard (Edit.getRef b cell)
  | setRef cell value => discard (Edit.setRef b cell value)
  | closure proto captures => discard (Edit.closure b proto captures)
  | binary op lhs rhs => discard (Edit.binary b op lhs rhs)
  | unary op operand => discard (Edit.unary b op operand)
  | call callee args => discard (Edit.call b callee args)
  | vararg => discard (Edit.vararg b)
  | select tuple index => discard (Edit.select b tuple index)
  | makeTuple elements => discard (Edit.makeTuple b elements)

/-- Whether a call is an edit of its own. The verifier may cache the dominance before it reports, and
`appendValue` is the common part of those constructions that return a value. -/
def Call.isEdit : Call → Bool
  | verify | appendValue _ _ _ => false
  | _ => true

namespace Edit

variable {α : Type} {f : Func}

def FailsUnchanged (e : Edit α) (f : Func) : Prop := ∀ err g, e.apply f = (.error err, g) → g = f

theorem Yields.failsUnchanged {e : Edit α} {Q : α → Func → Prop} (h : e.Yields f Q) :
    e.FailsUnchanged f := by
  intro err g hrun
  rcases h with ⟨err', h⟩ | ⟨a, g', h, -⟩
  · rw [h] at hrun
    exact (Prod.mk.inj hrun).2.symm
  · rw [h] at hrun
    cases (Prod.mk.inj hrun).1

theorem FailsUnchanged.discard {e : Edit α} (h : e.FailsUnchanged f) :
    (discard e).FailsUnchanged f := by
  intro err g hrun
  rw [apply_discard] at hrun
  obtain ⟨herr, hg⟩ := Prod.mk.inj hrun
  cases he : (e.apply f).1 with
  | error err' => exact h err' g (Prod.ext he hg)
  | ok a =>
    rw [he] at herr
    cases herr

theorem failsUnchanged_of_ok {e : Edit α} {a : α} (h : (e.apply f).1 = .ok a) :
    e.FailsUnchanged f := by
  intro err g hrun
  rw [hrun] at h
  cases h

theorem setEntry_yields (f : Func) (b : BlockId) :
    (setEntry b).Yields f fun _ g => g = { f with entry := b }.invalidateDominance :=
  .query_bind fun _ _ => .modify rfl

/-- The value of an operation that has one is there as soon as the instruction is. -/
theorem appendValue_yields (f : Func) (b : BlockId) {opcode : Opcode} {kind : ValueKind}
    (hkind : opcode.resultKind = some kind) (operands : List ValueId) :
    (appendValue b opcode operands).Yields f fun v g =>
      v = f.values.next ∧ (append b opcode operands).apply f = (.ok f.insts.next, g) := by
  rcases append_yields f b opcode operands with ⟨err, herr⟩ | ⟨i, g, hrun, data, -, -, -, hplace⟩
  · exact .inl ⟨err, by rw [appendValue, apply_bind, herr]⟩
  · have hi : i = f.insts.next := congrArg Prod.fst hplace
    have hg : g = (place b data.insts.length opcode operands f).2 := congrArg Prod.snd hplace
    have hinst : g.inst i = .ok { opcode, operands, result := some f.values.next, block := b } := by
      rw [Func.inst_eq_ok, hi, hg, place_eq, Arena.get?_push, if_pos rfl, hkind]
      rfl
    refine .inr ⟨f.values.next, g, ?_, rfl, by rw [hrun, hi]⟩
    simp only [appendValue, apply_bind, hrun, apply_query, hinst, apply_pure]

theorem call_failsUnchanged (h : f.Sound) {c : Call} (hc : c.isEdit = true) :
    c.edit.FailsUnchanged f := by
  have hok : ∀ {α : Type} {e : Edit α} {a : α}, (e.apply f).1 = .ok a →
      (discard e).FailsUnchanged f := fun h => (failsUnchanged_of_ok h).discard
  cases c with
  | addArgument => exact hok rfl
  | setVariadic on => exact failsUnchanged_of_ok rfl
  | addUpvalue capture => exact hok rfl
  | constant k =>
    refine FailsUnchanged.discard fun err g hrun => ?_
    simp only [constant, apply_bind, apply_get] at hrun
    split at hrun <;> cases hrun
  | addBlock => exact hok rfl
  | setEntry b => exact (setEntry_yields f b).failsUnchanged
  | retarget b old new => exact (retarget_yields f b old new).failsUnchanged.discard
  | removeBlock b => exact (removeBlock_yields h b).failsUnchanged
  | removeUnreachable =>
    obtain ⟨dead, g, hrun, -⟩ := removeUnreachable_ok h
    exact hok (congrArg Prod.fst hrun)
  | append b opcode operands => exact (append_yields f b opcode operands).failsUnchanged.discard
  | appendValue b opcode operands => cases hc
  | vararg b =>
    refine FailsUnchanged.discard fun err g he => ?_
    rw [vararg_apply] at he
    have hkind : (if f.variadic then .vararg else .makeTuple : Opcode).resultKind =
        some .tuple := by split <;> rfl
    exact (appendValue_yields f b hkind []).failsUnchanged err g he
  | insertBefore before opcode operands =>
    exact (insertBefore_yields f before opcode operands).failsUnchanged.discard
  | removeInst i =>
    exact (removeInst_yields f i fun data v hi hv =>
      h.linked.inst_result i data v hi hv).failsUnchanged
  | setOperand i index v => exact (setOperand_yields f i index v).failsUnchanged
  | replaceAllUses old new => exact (replaceAllUses_yields h.uses old new).failsUnchanged.discard
  | addPhi b => exact (addPhi_yields f b).failsUnchanged.discard
  | setPhiSource p pred v => exact (setPhiSource_yields f p pred v).failsUnchanged
  | removePhiSource p pred => exact (removePhiSource_yields f p pred).failsUnchanged.discard
  | removePhi p =>
    exact (removePhi_yields f p fun data hp => h.linked.phi_result p data hp).failsUnchanged
  | dominance => exact (dominance_yields h.coherent).failsUnchanged.discard
  | invalidateDominance => exact failsUnchanged_of_ok rfl
  | setDominanceLimit limit => exact failsUnchanged_of_ok rfl
  | verify => cases hc

theorem construction_failsUnchanged (h : f.Sound) (b : BlockId) (k : Construction) :
    (k.edit b).FailsUnchanged f := by
  have happend : ∀ opcode operands, (discard (append b opcode operands)).FailsUnchanged f :=
    fun opcode operands => (append_yields f b opcode operands).failsUnchanged.discard
  have hvalue : ∀ {opcode : Opcode} {kind : ValueKind} (operands : List ValueId),
      opcode.resultKind = some kind → (discard (appendValue b opcode operands)).FailsUnchanged f :=
    fun operands hkind => (appendValue_yields f b hkind operands).failsUnchanged.discard
  cases k with
  | branch target => exact happend _ _
  | condBranch condition ifTrue ifFalse => exact happend _ _
  | ret values => exact happend _ _
  | newRef initial => exact hvalue _ rfl
  | getRef cell => exact hvalue _ rfl
  | setRef cell value => exact happend _ _
  | closure proto captures => exact hvalue _ rfl
  | binary op lhs rhs => exact hvalue _ rfl
  | unary op operand => exact hvalue _ rfl
  | call callee args => exact hvalue _ rfl
  | vararg => exact call_failsUnchanged (c := .vararg b) h rfl
  | select tuple index => exact hvalue _ rfl
  | makeTuple elements => exact hvalue _ rfl

/-- In a function that callers can make, a call or a construction that fails leaves everything as it
was, and the removal of unreachable blocks succeeds. -/
theorem failed_call_unchanged (f : Func) (hf : f.Built) :
    (∀ c : Call, c.isEdit = true → ∀ err g, c.edit.apply f = (.error err, g) → g = f) ∧
    (∀ (b : BlockId) (k : Construction) err g, (k.edit b).apply f = (.error err, g) → g = f) ∧
    ∃ dead g, removeUnreachable.apply f = (.ok dead, g) := by
  refine ⟨fun c hc => call_failsUnchanged hf.sound hc,
    fun b k => construction_failsUnchanged hf.sound b k, ?_⟩
  obtain ⟨dead, g, hrun, -⟩ := removeUnreachable_ok hf.sound
  exact ⟨dead, g, hrun⟩

/-- A block that nothing leads to, in a loop with itself. The entry returns what it computes, and a
phi of the exit takes it. -/
def detachedLoop : List Call :=
  [.addArgument, .addBlock, .addBlock, .appendValue ⟨1⟩ (.binary .add) [⟨0⟩, ⟨0⟩], .addPhi ⟨2⟩,
    .setPhiSource ⟨0⟩ ⟨1⟩ ⟨1⟩, .append ⟨1⟩ (.condBranch ⟨1⟩ ⟨2⟩) [⟨1⟩], .append ⟨0⟩ .ret [⟨1⟩, ⟨1⟩]]

/-- The loop cannot be removed while its value is in use, nor can a cell be read where there is none;
the removal of unreachable blocks takes it all the same. -/
theorem detachedLoop_unchanged :
    ∃ f g : Func, f = detachedLoop.foldl (fun f c => c.run f) (Func.new "f") ∧
      (Call.removeBlock ⟨1⟩).edit.apply f = (.error (.valueInUse ⟨1⟩ 3), f) ∧
      ((Construction.getRef ⟨0⟩).edit ⟨2⟩).apply f =
        (.error (.invariant (.notReference .getRef ⟨0⟩)), f) ∧
      removeUnreachable.apply f = (.ok [⟨1⟩, ⟨2⟩], g) := by
  obtain ⟨f, hf⟩ : ∃ f : Func, f = detachedLoop.foldl (fun f c => c.run f) (Func.new "f") :=
    ⟨_, rfl⟩
  obtain ⟨hcall, hconstruct, dead, g, hrun⟩ := failed_call_unchanged f ⟨"f", detachedLoop, hf⟩
  have hremove : ((Call.removeBlock ⟨1⟩).edit.apply f).1 = .error (.valueInUse ⟨1⟩ 3) := by
    rw [hf]
    decide +kernel
  have hread : (((Construction.getRef ⟨0⟩).edit ⟨2⟩).apply f).1 =
      .error (.invariant (.notReference .getRef ⟨0⟩)) := by
    rw [hf]
    decide +kernel
  have hdead : (removeUnreachable.apply f).1 = .ok [⟨1⟩, ⟨2⟩] := by
    rw [hf]
    decide +kernel
  rw [hrun] at hdead
  obtain rfl := Except.ok.inj hdead
  refine ⟨f, g, hf, Prod.ext hremove ?_, Prod.ext hread ?_, hrun⟩
  · exact hcall (.removeBlock ⟨1⟩) rfl _ _ (Prod.ext hremove rfl)
  · exact hconstruct ⟨2⟩ (.getRef ⟨0⟩) _ _ (Prod.ext hread rfl)

end Edit

end Midend
