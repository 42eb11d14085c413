import Midend.Proofs.Edit.Built
import Midend.Proofs.Edit.Keeps

namespace Midend

structure Inst.Formed (inst : Inst) : Prop where
  arity : inst.opcode.arity.accepts inst.operands.length = true
  result : inst.result.isSome = inst.opcode.resultKind.isSome

def Func.Formed (f : Func) : Prop := ∀ i inst, f.insts.get? i = some inst → inst.Formed

namespace Func

variable {f g : Func}

theorem Formed.of_insts (h : f.Formed) (hg : g.insts = f.insts) : g.Formed := by
  unfold Formed
  rw [hg]
  exact h

theorem Formed.erase (h : f.Formed) {i : InstId} (hg : g.insts = f.insts.erase i) : g.Formed := by
  intro j inst hj
  rw [hg, Arena.get?_erase] at hj
  split at hj
  · cases hj
  · exact h j inst hj

theorem Formed.modify (h : f.Formed) {i : InstId} {u : Inst → Inst}
    (hu : ∀ inst : Inst, inst.Formed → (u inst).Formed) (hg : g.insts = f.insts.modify i u) :
    g.Formed := by
  intro j inst hj
  rw [hg, Arena.get?_modify_eq_some] at hj
  obtain ⟨old, hold, rfl⟩ := hj
  split
  · exact hu old (h j old hold)
  · exact h j old hold

end Func

namespace Edit

open Func

theorem keepsFormed_of_insts {u : Func → Func} (h : ∀ f, (u f).insts = f.insts) :
    (modify u : Edit PUnit).Keeps Formed := .modify fun f hf => hf.of_insts (h f)

theorem removalKeeps_formed : RemovalKeeps Formed where
  eraseBlock _ _ hf := hf.of_insts rfl
  erasePhi _ _ hf := hf.of_insts rfl
  eraseInst _ i hf := hf.erase (i := i) rfl
  release f user vs hf := hf.of_insts (by rw [releaseUses_eq])
  forceDestroy _ := by
    refine .bind (.query _) fun data => keepsFormed_of_insts fun f => ?_
    dsimp only
    split <;> rfl
  removePhiSource _ _ := by
    refine .bind (.query _) fun data => .bind (keepsFormed_of_insts fun f => ?_) fun _ => .pure _
    dsimp only
    split <;> rfl
  invalidate _ hf := hf.of_insts rfl

theorem checkOperation_arity {opcode : Opcode} {operands : List ValueId} {f : Func}
    (h : checkOperation opcode operands f = .ok ()) :
    opcode.arity.accepts operands.length = true := by
  unfold checkOperation at h
  dsimp only at h
  split at h
  · assumption
  · cases h

/-- The new instruction is well formed, as its operands were checked. -/
theorem place_formed {f : Func} (h : f.Formed) (b : BlockId) (position : Nat) {opcode : Opcode}
    {operands : List ValueId} (hcheck : checkOperation opcode operands f = .ok ()) :
    (place b position opcode operands f).2.Formed := by
  intro i inst hi
  rw [place_eq] at hi
  simp only [Arena.get?_push] at hi
  split at hi
  · obtain rfl := Option.some.inj hi
    exact ⟨checkOperation_arity hcheck, by simp⟩
  · exact h i inst hi

end Edit

theorem Inst.Formed.retarget {inst : Inst} (h : inst.Formed) (old new : BlockId) :
    Inst.Formed { inst with opcode := inst.opcode.retarget old new } := by
  obtain ⟨harity, hresult⟩ := h
  constructor
  · cases hop : inst.opcode <;> simp_all [Opcode.retarget, Opcode.arity]
  · cases hop : inst.opcode <;> simp_all [Opcode.retarget, Opcode.resultKind]

theorem Inst.Formed.of_length {inst : Inst} (h : inst.Formed) {operands : List ValueId}
    (hlen : operands.length = inst.operands.length) : Inst.Formed { inst with operands } :=
  ⟨hlen ▸ h.arity, h.result⟩

namespace Call

open Func

variable {f : Func}

theorem Effect.formed {g : Func} (he : Effect f g) (h : f.Formed) : g.Formed := by
  cases he with
  | same => exact h
  | newValue kind definition => exact h.of_insts rfl
  | retarget term old new => exact h.modify (fun inst hinst => hinst.retarget old new) rfl
  | removeBlock b => exact Edit.removalKeeps_formed.removeBlock b f h
  | place b position hcheck => exact Edit.place_formed h b position hcheck
  | @removeInst i inst _ => exact h.erase (i := i) (by simp [Func.unlistInst])
  | @setOperand i _ index _ v _ _ _ =>
    refine h.modify (i := i) (u := fun d => { d with operands := d.operands.set index v })
      (fun inst hinst => hinst.of_length List.length_set) ?_
    rw [withOperand, moveUse_insts]
  | replace _ hr =>
    intro i inst hi
    rw [hr.insts] at hi
    obtain ⟨inst', hi', rfl⟩ := Option.map_eq_some_iff.1 hi
    exact (h i inst' hi').of_length (List.length_map _)
  | addPhi b => exact h.of_insts rfl
  | setSource pred _ _ => exact h.of_insts (by rw [withSource, moveUse_insts])
  | removeSource pred _ => exact h.of_insts (by rw [withoutSource, moveUse_insts])
  | removePhi _ => exact h.of_insts (by simp [Func.unlistPhi])

theorem run_formed (hs : f.Sound) (h : f.Formed) (c : Call) : (c.run f).Formed := by
  by_cases hc : c = .removeUnreachable
  · subst hc
    simp only [run, edit, Edit.apply_discard]
    exact Edit.removalKeeps_formed.removeUnreachable f h
  · obtain ⟨g, he, hinsts, -⟩ := run_affects hs hc
    exact (he.formed h).of_insts hinsts

end Call

namespace Func

theorem new_formed (name : String) : (Func.new name).Formed := by
  intro i inst hi
  simp [Func.new, Arena.get?] at hi

theorem Built.formed {f : Func} (h : f.Built) : f.Formed := by
  obtain ⟨name, calls, rfl⟩ := h
  suffices hrun : ∀ f : Func, f.Sound → f.Formed →
      (calls.foldl (fun f c => c.run f) f).Formed from hrun _ (new_sound name) (new_formed name)
  induction calls with
  | nil => exact fun _ _ hf => hf
  | cons c calls ih => exact fun f hs hf => ih _ (c.run_sound hs) (c.run_formed hs hf)

end Func

end Midend
