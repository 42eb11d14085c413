import Midend.Proofs.Edit.Built
import Midend.Proofs.Edit.Keeps

namespace Midend

/-- The value is no reference if it is an argument or the result of a phi. -/
structure Value.Plain (val : Value) : Prop where
  argument : ∀ n, val.definition = .argument n → val.kind = .value
  phi : ∀ p, val.definition = .phi p → val.kind = .value

theorem Value.Plain.of_kind {val : Value} (h : val.kind = .value) : val.Plain :=
  ⟨fun _ _ => h, fun _ _ => h⟩

namespace Func

def Plain (f : Func) : Prop := ∀ v val, f.values.get? v = some val → val.Plain

namespace Plain

variable {f g : Func}

theorem inherit (h : f.Plain) (hg : ∀ v val, g.values.get? v = some val →
    ∃ old, f.values.get? v = some old ∧ old.definition = val.definition ∧ old.kind = val.kind) :
    g.Plain := by
  intro v val hv
  obtain ⟨old, hold, hdef, hkind⟩ := hg v val hv
  have hplain := h v old hold
  exact ⟨fun n hn => hkind.symm.trans (hplain.argument n (hdef.trans hn)),
    fun p hp => hkind.symm.trans (hplain.phi p (hdef.trans hp))⟩

theorem of_values (h : f.Plain) (hg : g.values = f.values) : g.Plain := by
  intro v val hv
  rw [hg] at hv
  exact h v val hv

theorem of_shape (h : f.Plain) (hg : f.SameShape g) : g.Plain :=
  h.inherit fun _ _ hv => hg.get?_value hv

theorem eraseValue (h : f.Plain) {v : ValueId} (hg : g.values = f.values.erase v) : g.Plain := by
  intro w val hw
  rw [hg, Arena.get?_erase] at hw
  split at hw
  · cases hw
  · exact h w val hw

theorem pushValue (h : f.Plain) (kind : ValueKind) (definition : Definition)
    (hnew : (⟨kind, definition, ∅⟩ : Value).Plain) : (f.pushValue kind definition).Plain := by
  intro w val hw
  simp only [Func.pushValue, Arena.get?_push] at hw
  split at hw
  · obtain rfl := Option.some.inj hw
    exact hnew
  · exact h w val hw

theorem foldl_modifyValue (h : f.Plain) {u : Value → Value} (hu : ∀ val, (u val).shape = val.shape)
    (vs : List ValueId) : (vs.foldl (fun f v => f.modifyValue v u) f).Plain := by
  induction vs generalizing f with
  | nil => exact h
  | cons v vs ih => exact ih (h.of_shape (.modifyValue f v hu))

theorem releaseUses (h : f.Plain) (user : User) (vs : List ValueId) :
    (f.releaseUses user vs).Plain := h.foldl_modifyValue (fun val => shape_dropUses val user) vs

theorem withResult (h : f.Plain) (opcode : Opcode) : (f.withResult opcode).Plain := by
  unfold Func.withResult
  split
  · exact h.pushValue _ (.inst _) ⟨nofun, nofun⟩
  · exact h

theorem dropInst (h : f.Plain) (i : InstId) (data : Inst) : (f.dropInst i data).Plain := by
  refine h.inherit fun v val hv => ?_
  obtain ⟨-, old, hold, rfl⟩ := dropInst_values_eq_some.1 hv
  refine ⟨old, hold, ?_⟩
  split <;> exact ⟨rfl, rfl⟩

theorem dropPhi (h : f.Plain) (p : PhiId) (data : Phi) : (f.dropPhi p data).Plain := by
  refine h.inherit fun v val hv => ?_
  obtain ⟨-, old, hold, rfl⟩ := dropPhi_values_eq_some.1 hv
  refine ⟨old, hold, ?_⟩
  split <;> exact ⟨rfl, rfl⟩

end Plain

end Func

namespace Edit

open Func

theorem removalKeeps_plain : RemovalKeeps Plain where
  eraseBlock _ _ hf := hf.of_values rfl
  erasePhi _ _ hf := hf.of_values rfl
  eraseInst _ _ hf := hf.of_values rfl
  release _ user vs hf := hf.releaseUses user vs
  forceDestroy v := by
    refine .bind (.query _) fun data => .modify fun f hf => hf.eraseValue (v := v) ?_
    dsimp only
    split <;> rfl
  removePhiSource p pred f hf := by
    refine (removePhiSource_yields f p pred).imp ?_ |>.snd hf
    rintro _ g ⟨phi, -, -, rfl⟩
    exact hf.of_shape (.withoutSource f p _ pred)
  invalidate _ hf := hf.of_values rfl

/-- The result of a new instruction may be a reference. -/
theorem place_plain {f : Func} (h : f.Plain) (b : BlockId) (position : Nat) (opcode : Opcode)
    (operands : List ValueId) : (place b position opcode operands f).2.Plain := by
  refine ((h.withResult opcode).foldl_modifyValue
    (fun val => shape_addUses val (.inst f.insts.next) 1) operands).of_values ?_
  rw [place_eq, Func.foldl_modifyValue]

end Edit

namespace Call

open Func

variable {f : Func}

theorem run_plain (hs : f.Sound) (h : f.Plain) (c : Call) : (c.run f).Plain := by
  have happend : ∀ b opcode operands, ((Edit.append b opcode operands).apply f).2.Plain := by
    intro b opcode operands
    refine (Edit.append_yields f b opcode operands).imp ?_ |>.snd h
    rintro i g ⟨data, -, -, -, hg⟩
    obtain ⟨-, rfl⟩ := Prod.mk.inj hg
    exact Edit.place_plain h b _ opcode operands
  have hdominance : (Edit.dominance.apply f).2.Plain := by
    refine (Edit.dominance_yields hs.coherent).imp ?_ |>.snd h
    rintro d g ⟨-, rfl⟩
    exact h
  cases c <;> simp only [run, edit, Edit.apply_discard]
  case addArgument => exact (h.pushValue .value (.argument _) (.of_kind rfl)).of_values rfl
  case setVariadic on => exact h
  case addUpvalue capture =>
    have hnew : ∀ kind c n, (⟨kind, .upvalue c n, ∅⟩ : Value).Plain := fun kind c n =>
      ⟨by simp, by simp⟩
    cases capture <;> exact (h.pushValue _ (.upvalue _ _) (hnew _ _ _)).of_values rfl
  case constant k =>
    simp only [Edit.constant, Edit.apply_bind, Edit.apply_get]
    cases (f.constantValue k).filter f.values.contains with
    | some v => exact h
    | none => exact (h.pushValue .value (.const k) (.of_kind rfl)).of_values rfl
  case addBlock => exact h
  case setEntry b =>
    simp only [Edit.setEntry, Edit.apply_bind, Edit.apply_query]
    cases f.block b <;> exact h
  case retarget b old new =>
    refine (Edit.retarget_yields f b old new).imp ?_ |>.snd h
    rintro _ g ⟨data, term, inst, -, -, -, rfl⟩
    split <;> exact h
  case removeBlock b => exact Edit.removalKeeps_plain.removeBlock b f h
  case removeUnreachable => exact Edit.removalKeeps_plain.removeUnreachable f h
  case append b opcode operands => exact happend b opcode operands
  case appendValue b opcode operands =>
    rw [Edit.appendValue_snd]
    exact happend b opcode operands
  case vararg b =>
    rw [Edit.vararg_apply, Edit.appendValue_snd]
    exact happend b _ []
  case insertBefore before opcode operands =>
    refine (Edit.insertBefore_yields f before opcode operands).imp ?_ |>.snd h
    rintro i g ⟨inst, data, position, -, -, -, -, -, hg⟩
    obtain ⟨-, rfl⟩ := Prod.mk.inj hg
    exact Edit.place_plain h _ position opcode operands
  case removeInst i =>
    refine (Edit.removeInst_yields f i fun data v hi hv =>
      hs.linked.inst_result i data v hi hv).imp ?_ |>.snd h
    rintro _ g ⟨inst, -, -, rfl⟩
    have hunlist : (f.unlistInst inst.block i).Plain := h.of_values rfl
    split <;> exact hunlist.dropInst i inst
  case setOperand i index v =>
    refine (Edit.setOperand_yields f i index v).imp ?_ |>.snd h
    rintro _ g ⟨val, inst, old, -, -, -, rfl⟩
    split
    · exact h
    · exact h.of_shape (.withOperand f i index old v)
  case replaceAllUses old new =>
    refine (Edit.replaceAllUses_yields hs.uses old new).imp ?_ |>.snd h
    rintro _ g ⟨-, hr⟩
    exact h.of_shape hr.shape
  case addPhi b =>
    refine (Edit.addPhi_yields f b).imp ?_ |>.snd h
    rintro _ g ⟨data, -, -, rfl⟩
    exact (h.pushValue .value (.phi _) (.of_kind rfl)).of_values rfl
  case setPhiSource p pred v =>
    refine (Edit.setPhiSource_yields f p pred v).imp ?_ |>.snd h
    rintro _ g ⟨val, data, phi, -, -, -, rfl⟩
    exact h.of_shape (.withSource f p _ pred v)
  case removePhiSource p pred => exact Edit.removalKeeps_plain.removePhiSource p pred f h
  case removePhi p =>
    refine (Edit.removePhi_yields f p fun data hp => hs.linked.phi_result p data hp).imp ?_ |>.snd h
    rintro _ g ⟨phi, val, -, -, -, rfl⟩
    have hunlist : (f.unlistPhi phi.block p).Plain := h.of_values rfl
    exact hunlist.dropPhi p phi
  case dominance => exact hdominance
  case invalidateDominance => exact h
  case setDominanceLimit limit =>
    simp only [Edit.setDominanceLimit, Edit.apply_modify]
    split <;> exact h
  case verify =>
    rw [Edit.verify_apply]
    exact hdominance

end Call

namespace Func

theorem new_plain (name : String) : (Func.new name).Plain := by
  intro v val hv
  simp [Func.new, Arena.get?] at hv

theorem Built.plain {f : Func} (h : f.Built) : f.Plain := by
  obtain ⟨name, calls, rfl⟩ := h
  suffices hrun : ∀ f : Func, f.Sound → f.Plain →
      (calls.foldl (fun f c => c.run f) f).Plain from hrun _ (new_sound name) (new_plain name)
  induction calls with
  | nil => exact fun _ _ hf => hf
  | cons c calls ih => exact fun f hs hf => ih _ (c.run_sound hs) (c.run_plain hs hf)

end Func

end Midend
