import Midend.Proofs.Pipeline.Views

namespace Midend

open Work

variable {σ : Type} {mayFail : Prop} {id : FuncId} {v : VisitState σ}

/-- Only the log has grown, and not by a failed verification. -/
structure Context.Logs (c c' : Context) : Prop where
  config : c'.config = c.config
  failures : c'.events.has .verificationFailed = c.events.has .verificationFailed
  slots : c'.slots = c.slots
  trees : c'.trees = c.trees

namespace Context.Logs

variable {c c' c'' : Context}

theorem refl (c : Context) : c.Logs c := ⟨rfl, rfl, rfl, rfl⟩

theorem trans (h : c.Logs c') (h' : c'.Logs c'') : c.Logs c'' :=
  ⟨h'.config.trans h.config, h'.failures.trans h.failures, h'.slots.trans h.slots,
    h'.trees.trans h.trees⟩

theorem record (c : Context) {e : Event} (he : e.kind ≠ .verificationFailed) :
    c.Logs (c.record e) :=
  ⟨rfl, by simp [Context.record, EventLog.has_record, he], rfl, rfl⟩

theorem beside (h : c.Logs c') (id : FuncId) : c.Beside id c' :=
  ⟨h.config, h.failures, fun _ _ => by rw [h.slots], fun _ _ => by rw [h.trees]⟩

theorem view_eq (h : c.Logs c') (id : FuncId) (f : Func) : c'.view id f = c.view id f := by
  rw [Context.view, h.slots, h.trees, Context.view]

end Context.Logs

theorem setSlots_beside (c : Context) (id : FuncId) (a : SlotAssignment) :
    c.Beside id (c.setSlots id a) :=
  ⟨rfl, rfl, fun _ hne => (OrderedMap.get?_insert ..).trans (if_neg hne), fun _ _ => rfl⟩

theorem setTree_beside (c : Context) (id : FuncId) (t : ControlTree) :
    c.Beside id (c.setTree id t) :=
  ⟨rfl, rfl, fun _ _ => rfl, fun _ hne => (OrderedMap.get?_insert ..).trans (if_neg hne)⟩

theorem Visit.forM_record_ends {β : Type} {bs : List β} {event : β → Event}
    (hevent : ∀ b ∈ bs, (event b).kind ≠ .verificationFailed) :
    Ends mayFail (bs.forM fun b => Visit.update (·.record (event b)) : Visit σ Unit) v fun _ w =>
      v.context.Logs w.context ∧ w.func = v.func := by
  refine .forM (I := fun _ (w : VisitState σ) => v.context.Logs w.context ∧ w.func = v.func) bs ?_
    ⟨.refl _, rfl⟩
  rintro done b rest hsplit w ⟨hlogs, hfunc⟩
  refine .modify ⟨hlogs.trans (.record _ (hevent b ?_)), hfunc⟩
  rw [hsplit]
  exact List.mem_append_right _ List.mem_cons_self

def Outcome.isPromoted : Outcome → Bool
  | .promoted _ => true
  | .skipped _ => false

namespace Pass

theorem plain_of_mem_all {pass : Pass σ} (hpass : pass ∈ (all : List (Pass σ))) :
    (∀ id ctx, pass.applies id ctx = true) ∧ pass.prepare = pure () ∧ pass.conclude = pure () := by
  simp only [all, List.mem_cons, List.not_mem_nil, or_false] at hpass
  rcases hpass with rfl | rfl | rfl | rfl <;> exact ⟨fun _ _ => rfl, rfl, rfl⟩

theorem unreachableBlocks_ends {Q : List BlockId → Func → Prop}
    (h : Ends mayFail Edit.removeUnreachable v.func Q) :
    Ends mayFail (unreachableBlocks.visit id : Visit σ Bool) v fun changed w =>
      v.context.Logs w.context ∧ ∃ removed, Q removed w.func ∧ changed = !removed.isEmpty := by
  refine .bind (Visit.edit_ends (Q := fun removed w => w.context = v.context ∧ Q removed w.func)
    (h.imp fun removed g hg => ⟨rfl, hg⟩)) fun removed w ⟨hctx, hw⟩ => ?_
  refine .bind (Visit.forM_record_ends fun _ _ => by simp) fun _ u ⟨hlogs, hfunc⟩ => .pure ?_
  exact ⟨hctx ▸ hlogs, removed, hfunc ▸ hw, rfl⟩

theorem promotionEvents_spec (id : FuncId) (b : BlockId) (i : InstId) (removed : Nat)
    (outcome : Outcome) :
    (promotionEvents id b i removed outcome).isEmpty = !outcome.isPromoted ∧
      ∀ e ∈ promotionEvents id b i removed outcome, e.kind ≠ .verificationFailed := by
  cases outcome with
  | skipped why => exact ⟨rfl, fun e he => absurd he List.not_mem_nil⟩
  | promoted how =>
    refine ⟨rfl, fun e he => ?_⟩
    simp only [promotionEvents, List.cons_append, List.mem_cons, List.mem_append,
      List.mem_replicate] at he
    rcases he with rfl | ⟨-, rfl⟩ | ⟨-, rfl⟩ <;> simp

/-- Promotion tries the cells one after the other; `I` is what holds of the function between two
tries, with the cells done and whether any of them was promoted. -/
theorem promotion_ends {I : List InstId → List InstId → Bool → Func → Prop}
    (hcells : Ends mayFail Edit.cells v.func fun is g => I is [] false g)
    (hstep : ∀ is done i rest, is = done ++ i :: rest → ∀ changed g, I is done changed g →
      Ends mayFail (Edit.query (·.inst i)) g (fun _ g' => g' = g) ∧
      Ends mayFail (Edit.promoteCell v.context.config.promoteCaptured i) g fun outcome g' =>
        I is (done ++ [i]) (changed || outcome.isPromoted) g') :
    Ends mayFail (promotion.visit id : Visit σ Bool) v fun changed w =>
      v.context.Logs w.context ∧ ∃ is, I is is changed w.func := by
  refine .get_bind (.bind (Visit.edit_ends (Q := fun is w => w.context = v.context ∧
    I is [] false w.func) (hcells.imp fun _ _ hg => ⟨rfl, hg⟩)) fun is w ⟨hctx, hw⟩ => ?_)
  refine .bind (.foldlM (I := fun done (changes : List Event) (u : VisitState σ) =>
    u.context = v.context ∧ I is done (!changes.isEmpty) u.func ∧
      ∀ e ∈ changes, e.kind ≠ .verificationFailed) is ?_
    ⟨hctx, hw, fun _ he => absurd he List.not_mem_nil⟩) fun changes u ⟨hctx, hu, hkinds⟩ => ?_
  · rintro done i rest hsplit changes u ⟨hctx, hu, hkinds⟩
    obtain ⟨hinst, hpromote⟩ := hstep is done i rest hsplit _ _ hu
    refine .bind (Visit.edit_ends (Q := fun _ w => w = u) (hinst.imp fun _ g hg => by rw [hg]))
      fun inst _ hw => ?_
    rw [hw]
    have hcounted : Ends mayFail (Edit.promoteCounted v.context.config.promoteCaptured i) u.func
        fun r g' => I is (done ++ [i]) (!changes.isEmpty || r.1.isPromoted) g' :=
      .get_bind (.bind hpromote fun _ _ hg => .get_bind (.pure hg))
    refine .bind (Visit.edit_ends (Q := fun r w => w.context = v.context ∧
      I is (done ++ [i]) (!changes.isEmpty || r.1.isPromoted) w.func)
      (hcounted.imp fun _ _ hg => ⟨hctx, hg⟩)) fun r w ⟨hctx, hw⟩ => .pure ?_
    obtain ⟨hempty, hnew⟩ := promotionEvents_spec id inst.block i r.2 r.1
    refine ⟨hctx, ?_, fun e he => (List.mem_append.1 he).elim (hkinds e) (hnew e)⟩
    -- A try makes events exactly if it promotes, so the list is empty as long as nothing changed.
    have hboth : (changes ++ promotionEvents id inst.block i r.2 r.1).isEmpty =
        (changes.isEmpty && !r.1.isPromoted) := by
      rw [← hempty]
      cases changes <;> rfl
    rwa [hboth, Bool.not_and, Bool.not_not]
  · refine .bind (.modify (Q := fun _ w => v.context.Logs w.context ∧ w.func = u.func) ⟨?_, rfl⟩)
      fun _ w ⟨hlogs, hfunc⟩ => .pure ⟨hlogs, is, hfunc ▸ hu⟩
    rw [← hctx]
    refine ⟨rfl, ?_, rfl, rfl⟩
    have hnone : (changes.any fun e => decide (e.kind = .verificationFailed)) = false := by
      simpa using hkinds
    simp [EventLog.has, EventLog.merge, hnone]

theorem allocation_ends {Q : SlotAssignment → Func → Prop}
    (h : Ends mayFail (Edit.allocateSlots v.context.config.coalesce) v.func Q) :
    Ends mayFail (allocation.visit id : Visit σ Bool) v fun changed w =>
      changed = false ∧ v.context.Beside id w.context ∧
        ∃ a, Q a w.func ∧ w.view id = ⟨w.func, some a, (v.view id).tree⟩ := by
  refine .get_bind (.bind (Visit.edit_ends (Q := fun a w => w.context = v.context ∧ Q a w.func)
    (h.imp fun a g hg => ⟨rfl, hg⟩)) fun a w ⟨hctx, hw⟩ => .bind (.modify (Q := fun _ u =>
      v.context.Beside id u.context ∧ u.func = w.func ∧
        u.view id = ⟨w.func, some a, (v.view id).tree⟩) ⟨?_, rfl, ?_⟩)
      fun _ u ⟨hbeside, hfunc, hview⟩ => .pure ⟨rfl, hbeside, a, hfunc ▸ hw, hfunc ▸ hview⟩)
  · rw [hctx]
    exact ((Context.Logs.record _ (by simp)).beside id).trans (setSlots_beside _ id a)
  · simp [VisitState.view, Context.view, Context.setSlots, Context.record, OrderedMap.get?_insert,
      hctx]

theorem structuring_ends {Q : ControlTree → Func → Prop}
    (h : Ends mayFail Edit.controlTree v.func Q) :
    Ends mayFail (structuring.visit id : Visit σ Bool) v fun changed w =>
      changed = false ∧ v.context.Beside id w.context ∧
        ∃ t, Q t w.func ∧ w.view id = ⟨w.func, (v.view id).slots, some t⟩ := by
  refine .bind (Visit.edit_ends (Q := fun t w => w.context = v.context ∧ Q t w.func)
    (h.imp fun a g hg => ⟨rfl, hg⟩)) fun t w ⟨hctx, hw⟩ => ?_
  refine .bind (Visit.forM_record_ends fun g _ => ?_) fun _ u ⟨hlogs, hfunc⟩ =>
    .bind (.modify (Q := fun _ u => v.context.Beside id u.context ∧ u.func = w.func ∧
        u.view id = ⟨w.func, (v.view id).slots, some t⟩) ⟨?_, hfunc, ?_⟩)
      fun _ u ⟨hbeside, hfunc, hview⟩ => .pure ⟨rfl, hbeside, t, hfunc ▸ hw, hfunc ▸ hview⟩
  · dsimp only
    split <;> simp
  · rw [← hctx]
    exact (hlogs.beside id).trans (setTree_beside _ id t)
  · simp [VisitState.view, Context.view, Context.setTree, OrderedMap.get?_insert, hlogs.slots, hctx,
      hfunc]

end Pass

end Midend
