import Midend.Proofs.Pipeline.Fresh
import Midend.Proofs.Promotion.Tries

/-!
The standard pipeline does not fail. Each pass hands the next one functions that are fit for it:
without unreachable blocks after the first pass, with every cell tried after the second, with slots
and a control tree stored after the other two. A sweep without a change has left every cell alone.
-/

namespace Midend

open Work

variable {σ : Type} {f g : Func} {c : Config} {still : Prop} {s : RunState σ}

theorem Edit.Ensures.ends {α : Type} {e : Edit α} {Q : α → Func → Prop} (h : e.Ensures f Q) :
    Ends False e f Q := ends_false.2 h

theorem Edit.Reads.apply_invalidated {α : Type} {e : Edit α} {a : α} {d : Dominance}
    {q : Func → Dominance → Except Error α} (h : e.Reads q)
    (hd : f.computeDominance f.dominanceLimit = .ok d) (ha : f.Computes e a) :
    (e.apply f.invalidateDominance).1 = .ok a := by
  obtain ⟨limit, d', hd', hq⟩ := h.computes_iff.1 ha
  obtain rfl := Func.computeDominance_unique hd hd'
  have hrun := h.apply_of_dominance (f := f.invalidateDominance) (d := d) (.of_none rfl) hd
  rw [hrun]
  exact (h.apart f none f.dominanceLimit d).trans hq

/-- What holds of a function between promotion and the end of a sweep. Its cells are settled if
promotion has changed nothing. -/
structure Func.Ready (c : Config) (still : Prop) (f : Func) : Prop where
  fit : f.Fit c.dominanceLimit
  swept : f.Swept
  settled : still → f.Settled c.promoteCaptured

namespace Func.Ready

theorem sameButCache (h : f.Ready c still) (hfg : f.SameButCache g) (hg : g.Fit c.dominanceLimit) :
    g.Ready c still := by
  refine ⟨hg, h.swept.sameButCache hfg, fun hs i hi => ?_⟩
  refine (h.settled hs i ?_).sameButCache h.fit.sound.coherent hg.sound.coherent hfg
  obtain ⟨x, rfl⟩ := hfg
  exact hi

theorem verify (h : f.Ready c still) : Ends False Edit.verify f fun _ g => g.Ready c still :=
  (h.fit.verify.imp fun _ _ hg => h.sameButCache hg.2 hg.1).ends

end Func.Ready

theorem VisitState.func_left (w : VisitState σ) (id : FuncId) (changed : Bool) :
    (if changed = true then ⟨w.func, none, none⟩ else w.view id : FuncView).func = w.func := by
  split <;> rfl

namespace Pass

theorem unreachableBlocks_serves : (unreachableBlocks : Pass σ).Serves False c
    (fun v => v.func.Fit c.dominanceLimit) fun _ v => v.func.Ready c False where
  applies _ _ := rfl
  prepare := rfl
  conclude := rfl
  visit id v hc hv := by
    refine (unreachableBlocks_ends hv.removeUnreachable.ends).imp ?_
    rintro changed w ⟨hlogs, removed, ⟨hfit, hswept⟩, -⟩
    rw [VisitState.func_left]
    exact ⟨hlogs.beside id, hfit, hswept, False.elim⟩
  verify _ v hv _ := hv.verify

/-- Between two tries: the cells still to be tried are there; and if none was promoted yet, all cells
are listed, and those tried are left alone. -/
structure Trying (c : Config) (is done : List InstId) (changed : Bool) (f : Func) : Prop where
  fit : f.Fit c.dominanceLimit
  swept : f.Swept
  nodup : is.Nodup
  ahead : ∀ i ∈ is, i ∉ done → f.Creates i
  listed : changed = false → ∀ i, f.Creates i → i ∈ is
  spared : changed = false → ∀ i ∈ done, f.Spares c.promoteCaptured i

theorem Trying.start (hf : f.Ready c False) :
    Ends False Edit.cells f fun is g => Trying c is [] false g := by
  have hdominance : Edit.dominance.Keeps Func.Built :=
    keeps_of_discard (fun c _ hk => hk.run c) .dominance rfl
  have hbuilt := cells_keeps hdominance f hf.fit.built
  obtain ⟨d, hd⟩ := hf.fit.dominance
  obtain ⟨is, g, hrun, hg, hnodup, hmem⟩ := Edit.cells_ensures hf.fit.sound hd
  have hsame : f.SameButCache g := ⟨some d, hg⟩
  rw [hrun] at hbuilt
  have hfit := hf.fit.sameButCache hsame hbuilt
  refine ends_false.2 ⟨is, g, hrun, hfit, hf.swept.sameButCache hsame, hnodup, fun i hi _ => ?_,
    fun _ i hi => ?_, fun _ i hi => absurd hi List.not_mem_nil⟩
  · obtain ⟨inst, hinst, hop, -⟩ := (hmem i).1 hi
    obtain ⟨x, rfl⟩ := hsame
    exact ⟨inst, hinst, hop⟩
  · obtain ⟨x, rfl⟩ := hsame
    obtain ⟨inst, hinst, hop⟩ := hi
    obtain ⟨data, hdata, -⟩ := hf.fit.sound.linked.inst_listed i inst hinst id
    exact (hmem i).2 ⟨inst, hinst, hop, hf.swept _ (Func.hasBlock_iff.2 ⟨data, hdata⟩)⟩

theorem Trying.step {is done rest : List InstId} {i : InstId} {changed : Bool}
    (hf : Trying c is done changed f) (hsplit : is = done ++ i :: rest) :
    Ends False (Edit.promoteCell c.promoteCaptured i) f fun outcome g =>
      Trying c is (done ++ [i]) (changed || outcome.isPromoted) g := by
  have hi : f.Creates i := hf.ahead i (by simp [hsplit]) (notMem_done hf.nodup hsplit)
  refine (Edit.promoteCell_fit hf.fit c.promoteCaptured hi).ends.imp ?_
  rintro outcome g ⟨hfit, hswept, hother, hskip⟩
  have hunchanged : (changed || outcome.isPromoted) = false → changed = false ∧
      f.SameButCache g ∧ f.Spares c.promoteCaptured i := by
    intro h
    obtain ⟨hchanged, houtcome⟩ := Bool.or_eq_false_iff.1 h
    cases outcome with
    | promoted how => cases houtcome
    | skipped why => exact ⟨hchanged, hskip why rfl⟩
  refine ⟨hfit, hswept hf.swept, hf.nodup, fun j hj hdone => ?_, fun h j hj => ?_, fun h j hj => ?_⟩
  · simp only [List.mem_append, List.mem_singleton, not_or] at hdone
    exact hother j hdone.2 (hf.ahead j hj hdone.1)
  · obtain ⟨hchanged, ⟨x, rfl⟩, -⟩ := hunchanged h
    exact hf.listed hchanged j hj
  · obtain ⟨hchanged, hsame, hspared⟩ := hunchanged h
    have hj' : f.Spares c.promoteCaptured j := by
      rcases List.mem_append.1 hj with hj | hj
      · exact hf.spared hchanged j hj
      · exact List.mem_singleton.1 hj ▸ hspared
    exact hj'.sameButCache hf.fit.sound.coherent hfit.sound.coherent hsame

theorem promotion_serves : (promotion : Pass σ).Serves False c (fun v => v.func.Ready c False)
    fun changed v => v.func.Ready c (changed = false) where
  applies _ _ := rfl
  prepare := rfl
  conclude := rfl
  visit id v hc hv := by
    subst hc
    refine (promotion_ends (Trying.start hv) ?_).imp ?_
    · intro is done i rest hsplit changed g hg
      refine ⟨?_, hg.step hsplit⟩
      obtain ⟨inst, hinst, -⟩ := hg.ahead i (by simp [hsplit]) (notMem_done hg.nodup hsplit)
      exact ends_false.2 ⟨inst, g, congrArg (·, g) (Func.inst_eq_ok.2 hinst), rfl⟩
    · rintro changed w ⟨hlogs, is, hw⟩
      rw [VisitState.func_left]
      exact ⟨hlogs.beside id, hw.fit, hw.swept, fun h i hi => hw.spared h i (hw.listed h i hi)⟩
  verify _ v hv _ := hv.verify

theorem allocation_serves (still : Prop) : (allocation : Pass σ).Serves False c
    (fun v => v.func.Ready c still) fun _ v => v.func.Ready c still ∧ v.slots.isSome where
  applies _ _ := rfl
  prepare := rfl
  conclude := rfl
  visit id v hc hv := by
    refine (allocation_ends (hv.fit.allocateSlots _).ends).imp ?_
    rintro _ w ⟨rfl, hbeside, a, ⟨hfit, hsame⟩, hview⟩
    rw [if_neg (by simp), hview]
    exact ⟨hbeside, hv.sameButCache hsame hfit, rfl⟩
  verify _ v hv _ := hv.1.verify.imp fun _ _ hg => ⟨hg, hv.2⟩

theorem structuring_serves : (structuring : Pass σ).Serves False c
    (fun v => v.func.Ready c still ∧ v.slots.isSome)
    fun _ v => v.func.Ready c still ∧ v.slots.isSome ∧ v.tree.isSome where
  applies _ _ := rfl
  prepare := rfl
  conclude := rfl
  visit id v hc hv := by
    refine (structuring_ends hv.1.fit.controlTree.ends).imp ?_
    rintro _ w ⟨rfl, hbeside, t, ⟨hfit, hsame⟩, hview⟩
    rw [if_neg (by simp), hview]
    exact ⟨hbeside, hv.1.sameButCache hsame hfit, hv.2, rfl⟩
  verify _ v hv _ := hv.1.verify.imp fun _ _ hg => ⟨hg, hv.2⟩

end Pass

structure FuncView.Done (c : Config) (still : Prop) (v : FuncView) : Prop where
  ready : v.func.Ready c still
  slots : v.slots.isSome
  tree : v.tree.isSome

theorem FuncView.Done.imp {v : FuncView} {still' : Prop} (h : v.Done c still)
    (himp : still' → still) : v.Done c still' :=
  ⟨⟨h.ready.fit, h.ready.swept, fun hs => h.ready.settled (himp hs)⟩, h.slots, h.tree⟩

namespace Run

/-- A pass on all functions, as a part of a sweep that began in `s`. -/
theorem passOnAll_serves {pass : Pass σ} {Pre : FuncView → Prop} {Post : Bool → FuncView → Prop}
    {t : RunState σ} (hp : pass.Serves False c Pre Post) (hc : s.context.config = c)
    (hlike : s.Like t) (ht : t.All Pre) :
    Ends False (passOnAll pass s.program.funcIds) t fun n u =>
      s.Like u ∧ u.All fun v => ∃ changed, Post changed v ∧ (n = 0 → changed = false) := by
  have hids : s.program.funcIds = t.program.funcIds := by
    rw [Program.funcIds, ← hlike.size, Program.funcIds]
  exact (passOnAll_ends hp (hlike.config.trans hc) ht hids).imp fun n u hu =>
    ⟨hlike.trans hu.1, hu.2⟩

theorem sweep_done (hc : s.context.config = c) (hs : s.All fun v => v.func.Fit c.dominanceLimit) :
    Ends False (sweep Pass.all) s fun changed t =>
      s.Like t ∧ t.All (FuncView.Done c (changed = false)) := by
  refine .bind (forM_setup_ends fun p hp => (Pass.plain_of_mem_all hp).2.1) fun _ t ht => ?_
  rw [ht]
  refine .get_bind (.bind (R := fun counts t => s.Like t ∧
    t.All (FuncView.Done c ((counts.any fun n => decide (n ≠ 0)) = false))) ?_ ?_)
  · -- Each pass takes the functions as the one before it has left them.
    refine .mapM_cons (passOnAll_serves Pass.unreachableBlocks_serves hc (.refl s) hs) ?_
    rintro n₁ t₁ ⟨hlike₁, ht₁⟩
    have hswept : t₁.All fun v => v.func.Ready c False := by
      intro id v hv
      obtain ⟨_, hready, -⟩ := ht₁ id v hv
      exact hready
    refine .mapM_cons (passOnAll_serves Pass.promotion_serves hc hlike₁ hswept) ?_
    rintro n₂ t₂ ⟨hlike₂, ht₂⟩
    have htried : t₂.All fun v => v.func.Ready c (n₂ = 0) := by
      intro id v hv
      obtain ⟨_, hready, hzero⟩ := ht₂ id v hv
      exact ⟨hready.fit, hready.swept, fun h => hready.settled (hzero h)⟩
    refine .mapM_cons (passOnAll_serves (Pass.allocation_serves (n₂ = 0)) hc hlike₂ htried) ?_
    rintro n₃ t₃ ⟨hlike₃, ht₃⟩
    have hslots : t₃.All fun v => v.func.Ready c (n₂ = 0) ∧ v.slots.isSome := by
      intro id v hv
      obtain ⟨_, hready, -⟩ := ht₃ id v hv
      exact hready
    refine .mapM_cons (passOnAll_serves Pass.structuring_serves hc hlike₃ hslots) ?_
    rintro n₄ t₄ ⟨hlike₄, ht₄⟩
    refine .pure ⟨hlike₄, fun id v hv => ?_⟩
    obtain ⟨_, ⟨hready, hslots, htree⟩, -⟩ := ht₄ id v hv
    refine FuncView.Done.imp ⟨hready, hslots, htree⟩ fun hany => ?_
    simp only [List.any_cons, Bool.or_eq_false_iff, decide_eq_false_iff_not, not_not] at hany
    exact hany.2.1
  · rintro counts t ⟨hlike, ht⟩
    refine .bind (forM_setup_ends fun p hp => (Pass.plain_of_mem_all hp).2.2) fun _ u hu => .pure ?_
    rw [hu]
    exact ⟨hlike, ht⟩

/-- Sweeps stop after one that changed nothing, unless they stop at the limit. -/
theorem sweeps_done (left done : Nat) (hc : s.context.config = c)
    (hs : s.All fun v => v.func.Fit c.dominanceLimit) :
    Ends False (sweeps Pass.all (left + 1) done) s fun k t => s.Like t ∧
      (done < k ∧ k ≤ done + (left + 1)) ∧ t.All (FuncView.Done c (k < done + (left + 1))) := by
  induction left generalizing s done with
  | zero =>
    refine .bind (sweep_done hc hs) fun changed t ⟨hlike, ht⟩ => ?_
    have hlast : t.All (FuncView.Done c (done + 1 < done + (0 + 1))) :=
      ht.imp fun v hv => hv.imp fun h => absurd h (Nat.lt_irrefl _)
    split
    · exact .pure ⟨hlike, ⟨Nat.lt_succ_self done, Nat.le_refl _⟩, hlast⟩
    · exact .pure ⟨hlike, ⟨Nat.lt_succ_self done, Nat.le_refl _⟩, hlast⟩
  | succ left ih =>
    refine .bind (sweep_done hc hs) fun changed t ⟨hlike, ht⟩ => ?_
    split
    · refine (ih (done + 1) (hlike.config.trans hc) (ht.imp fun v hv => hv.ready.fit)).imp ?_
      rintro k u ⟨hlike', ⟨hlt, hle⟩, hu⟩
      refine ⟨hlike.trans hlike', ⟨by omega, by omega⟩, hu.imp fun v hv => hv.imp fun h => ?_⟩
      omega
    · rename_i hunchanged
      refine .pure ⟨hlike, ⟨Nat.lt_succ_self done, by omega⟩, ht.imp fun v hv => hv.imp fun _ => ?_⟩
      exact Bool.eq_false_iff.2 hunchanged

end Run

namespace Pipeline

theorem standard_ends (hs : ∀ f ∈ s.program.functions, f.Built ∧
      (Edit.verify.apply f).1 = .ok () ∧ f.blocks.size ≤ s.context.config.dominanceLimit) :
    Ends False (standard : Pipeline σ).run s fun k t => s.Like t ∧ (0 < k ∧ k ≤ 5) ∧
      t.All (FuncView.Done s.context.config (k < 5)) := by
  have hviews : s.All fun v => v.func.Built ∧ (Edit.verify.apply v.func).1 = .ok () ∧
      v.func.blocks.size ≤ s.context.config.dominanceLimit := by
    intro id v hv
    obtain ⟨f, hf, rfl⟩ := Option.map_eq_some_iff.1 hv
    exact hs f (List.mem_of_getElem? hf)
  refine .get_bind (.bind (R := fun _ t => s.Like t ∧
    t.All fun v => v.func.Fit s.context.config.dominanceLimit)
    (Run.limits_ends (fun v ⟨hbuilt, hv, hsize⟩ => .of_built hbuilt hv hsize) hviews)
    fun _ t ⟨hlike, ht⟩ => ?_)
  exact (Run.sweeps_done 4 0 hlike.config ht).imp fun k u ⟨hlike', hk, hu⟩ =>
    ⟨hlike.trans hlike', by simpa using hk, by simpa using hu⟩

end Pipeline

/-- A function that has gone through the pipeline, with what is stored for it. -/
structure FuncView.Finished (c : Config) (still : Prop) (v : FuncView) : Prop where
  verifies : (Edit.verify.apply v.func).1 = .ok ()
  reaches : ∀ b, v.func.hasBlock b = true → v.func.toFlowGraph.Reaches v.func.entry b
  /-- What is stored is what is computed afresh. -/
  slots : ∃ a, v.slots = some a ∧
    ((Edit.allocateSlots c.coalesce).apply v.func.invalidateDominance).1 = .ok a
  tree : ∃ t, v.tree = some t ∧ (Edit.controlTree.apply v.func.invalidateDominance).1 = .ok t
  /-- Promotion would leave all cells alone. -/
  settled : still → ∀ i inst, v.func.insts.get? i = some inst → inst.opcode = .newRef →
    ∃ why, ((Edit.promoteCell c.promoteCaptured i).apply v.func).1 = .ok (.skipped why)

theorem FuncView.Done.finished {v : FuncView} (h : v.Done c still) (hfresh : v.Fresh c.coalesce) :
    v.Finished c still := by
  have hfit := h.ready.fit
  obtain ⟨d, hd⟩ := hfit.dominance
  obtain ⟨a, ha⟩ := Option.isSome_iff_exists.1 h.slots
  obtain ⟨t, ht⟩ := Option.isSome_iff_exists.1 h.tree
  refine ⟨hfit.verifies, fun b hb => ?_, ⟨a, ha, ?_⟩, ⟨t, ht, ?_⟩, fun hstill i inst hi hop => ?_⟩
  · exact hfit.sound.linked.reaches_iff.2 (h.ready.swept b hb)
  · exact (Edit.allocateSlots_reads c.coalesce).apply_invalidated hd (hfresh.slots a ha)
  · exact Edit.controlTree_reads.apply_invalidated hd (hfresh.tree t ht)
  · exact h.ready.settled hstill i ⟨inst, hi, hop⟩

namespace Pipeline

/-- On functions that callers made and the verifier accepts, and under a limit that covers their
blocks, the standard pipeline comes to its end in one to five sweeps, without a failed verification,
and every function is finished. With fewer than five sweeps no cell is left to promote. -/
theorem standard_total (p : Program) (c : Config) (memory : σ)
    (hfuncs : ∀ f ∈ p.functions, f.Built ∧ (Edit.verify.apply f).1 = .ok () ∧
      f.blocks.size ≤ c.dominanceLimit) :
    ∃ k t, outcome standard.run ⟨p, { config := c }, memory⟩ = (.ok k, t) ∧ 1 ≤ k ∧ k ≤ 5 ∧
      (∀ e ∈ t.context.events.events, e.kind ≠ .verificationFailed) ∧
      t.program.size = p.size ∧
      ∀ id f, t.program.func id = .ok f → (t.context.view id f).Finished c (k < 5) := by
  have hviews : RunState.All (FuncView.Fresh c.coalesce) ⟨p, { config := c }, memory⟩ := by
    intro id v hv
    obtain ⟨f, hf, rfl⟩ := Option.map_eq_some_iff.1 hv
    exact .of_sound (hfuncs f (List.mem_of_getElem? hf)).1.sound
  obtain ⟨k, t, hrun, ⟨hlike, ⟨hpos, hle⟩, hdone⟩, -, hfresh⟩ :=
    ends_false.1 ((standard_ends hfuncs).and (run_ends_fresh (fun _ h => h) hviews))
  refine ⟨k, t, hrun, hpos, hle, ?_, hlike.size, fun id f hf => ?_⟩
  · have hnone : t.context.events.has .verificationFailed = false := hlike.failures
    simpa [EventLog.has] using hnone
  · have hview : t.view id = some (t.context.view id f) := by
      rw [RunState.view, Program.func_eq_ok.1 hf, Option.map_some]
    exact (hdone id _ hview).finished (hfresh id _ hview)

def capturedCell : Func :=
  [.addArgument, .appendValue ⟨0⟩ .newRef [⟨0⟩], .appendValue ⟨0⟩ (.closure 0) [⟨1⟩],
    .append ⟨0⟩ .ret [⟨2⟩]].foldl (fun f c => Call.run c f) (Func.new "g")

def twoCells : Program := { functions := [readCell, capturedCell] }

/-- Captured cells stay, and the limit is just enough for `readCell`. -/
def keepingCaptured : Config := { promoteCaptured := false, dominanceLimit := 2 }

/-- The second sweep changes nothing: a cell and an unreachable block are gone, and the captured cell
is still there. -/
theorem twoCells_total : ∃ t : RunState Unit,
    outcome standard.run ⟨twoCells, { config := keepingCaptured }, ()⟩ = (.ok 2, t) ∧
    (∀ e ∈ t.context.events.events, e.kind ≠ .verificationFailed) ∧
    (∀ id f, t.program.func id = .ok f →
      (t.context.view id f).Finished keepingCaptured (2 < 5)) ∧
    t.program.functions.map (fun f => (f.blocks.count, f.insts.count)) = [(1, 1), (1, 3)] := by
  have hfuncs : ∀ f ∈ twoCells.functions, f.Built ∧ (Edit.verify.apply f).1 = .ok () ∧
      f.blocks.size ≤ keepingCaptured.dominanceLimit := by
    intro f hf
    simp only [twoCells, List.mem_cons, List.not_mem_nil, or_false] at hf
    rcases hf with rfl | rfl
    · exact ⟨⟨"f", _, rfl⟩, by decide +kernel, by decide +kernel⟩
    · exact ⟨⟨"g", _, rfl⟩, by decide +kernel, by decide +kernel⟩
  obtain ⟨k, t, hrun, -, -, hevents, -, hfinished⟩ :=
    standard_total twoCells keepingCaptured () hfuncs
  have hk : (outcome (standard : Pipeline Unit).run
      ⟨twoCells, { config := keepingCaptured }, ()⟩).1 = .ok 2 := by decide +kernel
  have hcounts : (outcome (standard : Pipeline Unit).run
      ⟨twoCells, { config := keepingCaptured }, ()⟩).2.program.functions.map
        (fun f => (f.blocks.count, f.insts.count)) = [(1, 1), (1, 3)] := by decide +kernel
  rw [hrun] at hk hcounts
  obtain rfl := Except.ok.inj hk
  exact ⟨t, hrun, hevents, hfinished, hcounts⟩

end Pipeline

end Midend
