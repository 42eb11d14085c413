import Midend.Proofs.Edit.Steps

namespace Midend.Edit

variable {α β : Type} {P : Func → Prop}

/-- After the edit, successful or not, `P` holds if it held before. -/
def Keeps (P : Func → Prop) (e : Edit α) : Prop := ∀ f, P f → P (e.apply f).2

namespace Keeps

theorem pure (a : α) : (pure a : Edit α).Keeps P := fun _ h => h

theorem throw (err : Error) : (throw err : Edit α).Keeps P := fun _ h => h

theorem get : (get : Edit Func).Keeps P := fun _ h => h

theorem query (q : Func → Except Error α) : (query q).Keeps P := fun _ h => h

theorem modify {u : Func → Func} (h : ∀ f, P f → P (u f)) : (modify u : Edit PUnit).Keeps P := h

theorem bind {e : Edit α} {k : α → Edit β} (he : e.Keeps P) (hk : ∀ a, (k a).Keeps P) :
    (e >>= k).Keeps P := by
  intro f hf
  have hg := he f hf
  rw [apply_bind]
  rcases hrun : e.apply f with ⟨_ | a, g⟩
  · rw [hrun] at hg
    exact hg
  · rw [hrun] at hg
    exact hk a g hg

theorem map {u : α → β} {e : Edit α} (he : e.Keeps P) : (u <$> e).Keeps P := by
  intro f hf
  rw [apply_map]
  exact he f hf

theorem discard {e : Edit α} (he : e.Keeps P) : (discard e).Keeps P := map he

theorem forM {u : α → Edit Unit} {as : List α} (hu : ∀ a ∈ as, (u a).Keeps P) :
    (as.forM u).Keeps P := by
  induction as with
  | nil => exact pure ()
  | cons a as ih =>
    obtain ⟨ha, has⟩ := List.forall_mem_cons.1 hu
    exact bind ha fun _ => ih has

theorem foldlM {u : β → α → Edit β} (hu : ∀ b a, (u b a).Keeps P) (as : List α) (b : β) :
    (as.foldlM u b).Keeps P := by
  induction as generalizing b with
  | nil => exact pure b
  | cons a as ih =>
    rw [List.foldlM_cons]
    exact bind (hu b a) ih

theorem mapM {u : α → Edit β} (hu : ∀ a, (u a).Keeps P) (as : List α) : (as.mapM u).Keeps P := by
  induction as with
  | nil => exact pure []
  | cons a as ih =>
    rw [List.mapM_cons]
    exact bind (hu a) fun _ => bind ih fun _ => pure _

theorem filterM {u : α → Edit Bool} (hu : ∀ a, (u a).Keeps P) (as : List α) :
    (as.filterM u).Keeps P := by
  have hloop : ∀ (as acc : List α), (List.filterAuxM u as acc).Keeps P := by
    intro as
    induction as with
    | nil => exact fun acc => pure acc
    | cons a as ih => exact fun acc => bind (hu a) fun _ => ih _
  exact bind (hloop as []) fun _ => pure _

end Keeps

/-- Each of the steps that removals are made of keeps `P`. -/
structure RemovalKeeps (P : Func → Prop) : Prop where
  eraseBlock : ∀ f b, P f → P { f with blocks := f.blocks.erase b }
  erasePhi : ∀ f p, P f → P { f with phis := f.phis.erase p }
  eraseInst : ∀ f i, P f → P { f with insts := f.insts.erase i }
  release : ∀ f user vs, P f → P (f.releaseUses user vs)
  forceDestroy : ∀ v, (forceDestroy v).Keeps P
  removePhiSource : ∀ p pred, (removePhiSource p pred).Keeps P
  invalidate : ∀ f, P f → P f.invalidateDominance

namespace RemovalKeeps

theorem discardPhi (h : RemovalKeeps P) (p : PhiId) : (discardPhi p).Keeps P := by
  refine .bind .get fun _ => ?_
  split
  · exact .pure _
  · exact .bind (.modify fun f hf => h.release _ _ _ (h.erasePhi f p hf)) fun _ => h.forceDestroy _

theorem discardInst (h : RemovalKeeps P) (i : InstId) : (discardInst i).Keeps P := by
  refine .bind .get fun _ => ?_
  split
  · exact .pure _
  · refine .bind (.modify fun f hf => h.release _ _ _ (h.eraseInst f i hf)) fun _ => ?_
    split
    · exact .pure _
    · exact h.forceDestroy _

theorem dropEdgeSources (h : RemovalKeeps P) (pred b : BlockId) :
    (dropEdgeSources pred b).Keeps P := by
  refine .bind .get fun _ => ?_
  split
  · exact .pure _
  · exact .forM fun p _ => .discard (h.removePhiSource p pred)

theorem discardBlock (h : RemovalKeeps P) (b : BlockId) : (discardBlock b).Keeps P :=
  .bind (.query _) fun _ => .bind (.modify fun f => h.eraseBlock f b) fun _ =>
    .bind (.forM fun p _ => h.discardPhi p) fun _ => .forM fun i _ => h.discardInst i

theorem removeBlock (h : RemovalKeeps P) (b : BlockId) : (removeBlock b).Keeps P :=
  .bind (.query _) fun _ => .bind .get fun _ => .bind (h.discardBlock b) fun _ =>
    .bind (.forM fun s _ => h.dropEdgeSources b s) fun _ => .modify h.invalidate

theorem removeUnreachable (h : RemovalKeeps P) : removeUnreachable.Keeps P := by
  refine .bind .get fun f => ?_
  dsimp only
  split
  · exact .pure _
  · refine .bind (.forM fun b _ => .bind .get fun _ => .forM fun s _ => ?_) fun _ =>
      .bind (.forM fun b _ => h.discardBlock b) fun _ => .bind (.modify h.invalidate) fun _ =>
        .pure _
    split
    · exact h.dropEdgeSources b s
    · exact .pure _

end RemovalKeeps

end Midend.Edit
