import Midend.Promotion.Rename
import Midend.Proofs.Edit.Sound
import Midend.Proofs.Pipeline.Work

namespace Midend.Edit

open Work

variable {α β : Type} {h : Func} {d : Dominance} {cell : Cell} {phiAt : OrderedMap BlockId PhiId}

theorem Yields.ends {e : Edit α} {Q R : α → Func → Prop} (hy : e.Yields h Q)
    (hsound : (e.apply h).2.Sound) (hstep : ∀ r g, g.Sound → Q r g → R r g) :
    Ends True e h R := by
  refine ends_true.2 fun r g hrun => ?_
  have hg : (e.apply h).2 = g := congrArg Prod.snd hrun
  exact hstep r g (hg ▸ hsound) (hy.of_ok hrun)

theorem ends_query_bind {q : Func → Except Error β} {k : β → Edit α} {Q : α → Func → Prop}
    (hk : ∀ b, q h = .ok b → Ends True (k b) h Q) : Ends True (query q >>= k) h Q := by
  refine .bind (R := fun b g => q h = .ok b ∧ g = h) (ends_true.2 fun b g hrun => ?_) ?_
  · obtain ⟨hb, rfl⟩ := Prod.mk.inj hrun
    exact ⟨hb, rfl⟩
  · rintro b g ⟨hb, rfl⟩
    exact hk b hb

/-- What each part of the walk keeps: `I` of the function and `V` of the current value. -/
structure Walks (cell : Cell) (phiAt : OrderedMap BlockId PhiId) (I : Func → Prop)
    (V : ValueId → Prop) : Prop where
  use : ∀ g v i, I g → V v →
    Ends True (dissolveUse cell.value v i) g fun w g' => I g' ∧ V w
  phi : ∀ g b p phi, phiAt.get? b = some p → g.phis.get? p = some phi → I g → V phi.result
  source : ∀ g s p b v, phiAt.get? s = some p → I g → V v →
    Ends True (setPhiSource p b v) g fun _ g' => I g'

namespace Walks

variable {I : Func → Prop} {V : ValueId → Prop} (hw : Walks cell phiAt I V)
include hw

theorem foldlM {v : ValueId} (hI : I h) (hV : V v) (is : List InstId) :
    Ends True (is.foldlM (dissolveUse cell.value) v) h fun w g => I g ∧ V w :=
  Ends.foldlM (I := fun _ w g => I g ∧ V w) is (fun _ i _ _ v g hg => hw.use g v i hg.1 hg.2)
    ⟨hI, hV⟩

/-- What follows the phi of a block, or comes first where there is none. -/
theorem rest {fuel : Nat} (b : BlockId)
    (ih : ∀ {h : Func} (c : BlockId) {v : ValueId}, I h → V v →
      Ends True (renameFrom d cell phiAt fuel c v) h fun _ g => I g)
    (hI : I h) {start : ValueId} (hstart : V start) :
    Ends True (do
      let insts ← query (·.instsAfter b (if b = cell.home then some cell.creation else none))
      let current ← insts.foldlM (dissolveUse cell.value) start
      (d.graph.successorsOf b).eraseDups.forM fun s =>
        match phiAt.get? s with
        | some p => setPhiSource p b current
        | none => pure ()
      (d.children b).forM fun c => renameFrom d cell phiAt fuel c current : Edit Unit) h
        fun _ g => I g := by
  refine ends_query_bind fun insts _ => .bind (hw.foldlM hI hstart insts) ?_
  rintro current g ⟨hg, hcurrent⟩
  refine .bind (Ends.forM (I := fun _ g => I g) _ ?_ hg) ?_
  · intro _ s _ _ g hg
    split
    · exact hw.source g s _ b current ‹_› hg hcurrent
    · exact .pure hg
  · exact fun _ g hg => Ends.forM (I := fun _ g => I g) _ (fun _ c _ _ g hg => ih c hg hcurrent) hg

theorem renameFrom (fuel : Nat) (b : BlockId) {v : ValueId} (hI : I h) (hV : V v) :
    Ends True (renameFrom d cell phiAt fuel b v) h fun _ g => I g := by
  induction fuel generalizing h b v with
  | zero => exact .pure hI
  | succ fuel ih =>
    unfold Edit.renameFrom
    dsimp only
    split
    · rename_i p hat
      refine .bind (R := fun start g => g = h ∧ V start) (.map ?_) ?_
      · rw [← bind_pure (query _)]
        exact ends_query_bind fun phi hphi => .pure ⟨rfl,
          hw.phi h b p phi hat (Func.phi_eq_ok.1 hphi) hI⟩
      · rintro start g ⟨rfl, hstart⟩
        exact hw.rest b ih hI hstart
    · exact hw.rest b ih hI hV

end Walks

end Midend.Edit
