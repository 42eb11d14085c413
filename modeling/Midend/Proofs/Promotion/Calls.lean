import Midend.Promotion.Rename
import Midend.Proofs.Edit.Built
import Midend.Proofs.Edit.Keeps

namespace Midend

open Edit

variable {P : Func → Prop}

theorem cells_keeps (hdominance : dominance.Keeps P) : cells.Keeps P :=
  .bind hdominance fun _ => .bind (.mapM (fun _ => .bind (.query _) fun _ =>
    .filterM (fun _ => .bind (.query _) fun _ => .pure _) _) _) fun _ => .pure _

variable (hcalls : ∀ c f, P f → P (Call.run c f))
include hcalls

theorem keeps_of_call (c : Call) : c.edit.Keeps P := hcalls c

theorem keeps_of_discard {α : Type} {e : Edit α} (c : Call) (hc : c.edit = discard e) :
    e.Keeps P := by
  intro f hf
  have hrun := hcalls c f hf
  rwa [Call.run, hc, apply_discard] at hrun

theorem dissolveUse_keeps (cell current : ValueId) (i : InstId) :
    (dissolveUse cell current i).Keeps P := by
  have hremove : (removeInst i).Keeps P := keeps_of_call hcalls (.removeInst i)
  refine .bind (.query _) fun inst => ?_
  split
  · exact .pure _
  split
  · have hreplace : ∀ result, (discard (replaceAllUses result current)).Keeps P :=
      fun result => keeps_of_call hcalls (.replaceAllUses result current)
    split
    · exact .bind (hreplace _) fun _ => .bind hremove fun _ => .pure _
    · exact .bind hremove fun _ => .pure _
  · split
    · exact .throw _
    · exact .bind hremove fun _ => .pure _
  · refine .bind (.forM fun e _ => ?_) fun _ => .pure _
    exact keeps_of_call hcalls (.setOperand i e.2 current)
  · exact .throw _

theorem renameFrom_keeps (dom : Dominance) (cell : Cell) (phiAt : OrderedMap BlockId PhiId)
    (fuel : Nat) (b : BlockId) (incoming : ValueId) :
    (renameFrom dom cell phiAt fuel b incoming).Keeps P := by
  induction fuel generalizing b incoming with
  | zero => exact .pure _
  | succ fuel ih =>
    unfold renameFrom
    cases phiAt.get? b
    -- With a phi at the block or without, what follows is the same.
    all_goals
      refine .bind ?_ fun start => .bind (.query _) fun insts =>
        .bind (.foldlM (dissolveUse_keeps hcalls cell.value) _ _) fun current =>
          .bind (.forM fun s _ => ?_) fun _ => .forM fun c _ => ih c current
    · exact .pure _
    · split
      · exact keeps_of_call hcalls (.setPhiSource _ b current)
      · exact .pure _
    · exact .map (.query _)
    · split
      · exact keeps_of_call hcalls (.setPhiSource _ b current)
      · exact .pure _

theorem pruneDeadPhis_keeps (phis : List PhiId) : (pruneDeadPhis phis).Keeps P := by
  refine .bind (.query _) fun live => .bind (.forM fun p _ => .bind (.query _) fun phi =>
    .forM fun pred _ => ?_) fun _ => .bind (.forM fun p _ => ?_) fun _ => .pure _
  · exact keeps_of_call hcalls (.removePhiSource p pred)
  · exact keeps_of_call hcalls (.removePhi p)

theorem rename_keeps (dom : Dominance) (cell : Cell) : (rename dom cell).Keeps P := by
  refine .bind (.mapM (fun u => .bind (.query _) fun _ => .pure _) _) fun stores =>
    .bind (.foldlM (fun m b => .bind ?_ fun _ => .pure _) _ _) fun phiAt =>
    .bind (renameFrom_keeps hcalls dom cell phiAt _ _ _) fun _ =>
    .bind (pruneDeadPhis_keeps hcalls _) fun _ => .pure _
  exact keeps_of_discard hcalls (.addPhi b) rfl

theorem dissolve_keeps (dom : Dominance) (cell : Cell) : (dissolve dom cell).Keeps P := by
  unfold dissolve
  split
  · exact .pure _
  split
  · exact .bind (.forM fun u _ => .discard (dissolveUse_keeps hcalls _ _ _)) fun _ => .pure _
  split
  · exact .bind (.forM fun u _ => keeps_of_call hcalls (.removeInst u.inst)) fun _ => .pure _
  refine .bind (.mapM (fun u => .bind (.query _) fun _ => .pure _) _) fun blocks => ?_
  split
  · exact .bind (.query _) fun insts => .bind (.discard (.foldlM (dissolveUse_keeps hcalls _) _ _))
      fun _ => .pure _
  · exact .bind (rename_keeps hcalls dom cell) fun _ => .pure _

theorem promoteCell_keeps (captured : Bool) (i : InstId) : (promoteCell captured i).Keeps P := by
  refine .bind (keeps_of_discard hcalls .dominance rfl) fun dom => .bind (.query _) fun verdict => ?_
  split
  · exact .pure _
  · exact .bind (dissolve_keeps hcalls dom _) fun _ =>
      .bind (keeps_of_call hcalls (.removeInst i)) fun _ => .pure _

theorem promoteAll_keeps (captured : Bool) : (promoteAll captured).Keeps P := by
  refine .bind (cells_keeps (keeps_of_discard hcalls .dominance rfl)) fun is =>
    .foldlM (fun stats i => ?_) _ _
  refine .bind (.bind .get fun f => .bind (promoteCell_keeps hcalls captured i) fun _ =>
    .bind .get fun _ => .pure _) fun _ => .pure _

end Midend
