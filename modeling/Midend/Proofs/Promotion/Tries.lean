import Midend.Proofs.Func.Fit
import Midend.Proofs.Promotion.Calls
import Midend.Proofs.Promotion.WellFormed

namespace Midend

variable {f g : Func} {d : Dominance} {limit : Nat} {i : InstId} {captured : Bool}

theorem Dominance.IsOf.dominatorPreorder_spec (h : d.IsOf f) :
    d.dominatorPreorder.Nodup ∧ ∀ b, b ∈ d.dominatorPreorder ↔ f.Reachable b := by
  obtain ⟨hnodup, hmem⟩ := h.tree.treePreorder_spec (Func.blockGraph_consistent f)
  refine ⟨hnodup, fun b => (hmem b).trans ?_⟩
  rw [h.entry]

namespace Edit

variable {α β : Type}

theorem mapM_apply {u : α → Edit β} {w : α → β} {as : List α}
    (h : ∀ a ∈ as, (u a).apply f = (.ok (w a), f)) :
    (as.mapM u).apply f = (.ok (as.map w), f) := by
  induction as with
  | nil => rfl
  | cons a as ih =>
    obtain ⟨ha, has⟩ := List.forall_mem_cons.1 h
    simp only [List.mapM_cons, apply_bind, ha, ih has, apply_pure, List.map_cons]

theorem filterM_apply {u : α → Edit Bool} {w : α → Bool} {as : List α}
    (h : ∀ a ∈ as, (u a).apply f = (.ok (w a), f)) :
    (as.filterM u).apply f = (.ok (as.filter w), f) := by
  have hloop : ∀ acc, (List.filterAuxM u as acc).apply f =
      (.ok ((as.filter w).reverse ++ acc), f) := by
    induction as with
    | nil => exact fun acc => rfl
    | cons a as ih =>
      intro acc
      obtain ⟨ha, has⟩ := List.forall_mem_cons.1 h
      rw [List.filterAuxM, apply_bind, ha]
      cases hw : w a <;> simp [hw, ih has]
  rw [List.filterM, apply_bind, hloop]
  simp

end Edit

namespace Func

def Creates (f : Func) (i : InstId) : Prop :=
  ∃ inst, f.insts.get? i = some inst ∧ inst.opcode = .newRef

def creationsIn (f : Func) (b : BlockId) : List InstId :=
  ((f.instIds b).getD []).filter fun i => (f.insts.get? i).any (·.opcode = .newRef)

theorem Linked.mem_creationsIn (hf : f.Linked fun _ => False) {b : BlockId} :
    i ∈ f.creationsIn b ↔
      ∃ inst, f.insts.get? i = some inst ∧ inst.opcode = .newRef ∧ inst.block = b := by
  rw [creationsIn, List.mem_filter, Option.any_eq_true]
  simp only [decide_eq_true_eq]
  constructor
  · rintro ⟨hmem, inst, hi, hop⟩
    refine ⟨inst, hi, hop, ?_⟩
    cases hdata : f.blocks.get? b with
    | none => simp [instIds, hdata] at hmem
    | some data =>
      rw [instIds, hdata] at hmem
      obtain ⟨inst', hi', hb⟩ := hf.listed_inst b data i hdata hmem
      exact Option.some.inj (hi.symm.trans hi') ▸ hb
  · rintro ⟨inst, hi, hop, rfl⟩
    obtain ⟨data, hdata, hmem⟩ := hf.inst_listed i inst hi id
    exact ⟨by simpa [instIds, hdata] using hmem, inst, hi, hop⟩

theorem Linked.creationsIn_nodup (hf : f.Linked fun _ => False) (b : BlockId) :
    (f.creationsIn b).Nodup := by
  refine List.Nodup.filter _ ?_
  cases hdata : f.blocks.get? b with
  | none => simp [instIds, hdata]
  | some data => simpa [instIds, hdata] using hf.insts_nodup b data hdata

end Func

namespace Edit

/-- The cells listed are the creations in reachable blocks, each once. -/
theorem cells_ensures (hf : f.Sound) (hd : f.computeDominance f.dominanceLimit = .ok d) :
    cells.Ensures f fun is g => g = { f with dominance := some d } ∧ is.Nodup ∧ ∀ i, i ∈ is ↔
      ∃ inst, f.insts.get? i = some inst ∧ inst.opcode = .newRef ∧ f.Reachable inst.block := by
  have hof := Func.computeDominance_isOf hd
  have hlinked := hf.linked
  obtain ⟨hnodup, hreach⟩ := hof.dominatorPreorder_spec
  refine ⟨d.dominatorPreorder.flatMap f.creationsIn, { f with dominance := some d }, ?_,
    rfl, List.nodup_flatMap.2 ⟨fun b _ => hlinked.creationsIn_nodup b, ?_⟩, fun i => ?_⟩
  · have hblocks : ∀ b ∈ d.dominatorPreorder, (do
        (← query (·.block b)).insts.filterM fun i => return (← query (·.inst i)).opcode = .newRef :
          Edit (List InstId)).apply { f with dominance := some d } =
        (.ok (f.creationsIn b), { f with dominance := some d }) := by
      intro b hb
      have hlive := hof.isReachable_iff.2 ((hreach b).1 hb)
      obtain ⟨data, hdata⟩ := hlinked.live_of_isReachable hof hlive
      have hblock : Func.block { f with dominance := some d } b = .ok data :=
        Func.block_eq_ok.2 hdata
      rw [apply_bind, apply_query, hblock]
      dsimp only
      rw [Func.creationsIn, Func.instIds, hdata]
      refine filterM_apply fun i hi => ?_
      obtain ⟨inst, hinst, -⟩ := hlinked.listed_inst b data i hdata hi
      have hget : Func.inst { f with dominance := some d } i = .ok inst := Func.inst_eq_ok.2 hinst
      rw [apply_bind, apply_query, hget, hinst]
      rfl
    rw [cells, apply_bind, dominance_apply hf.coherent hd]
    dsimp only
    rw [apply_bind, mapM_apply hblocks]
    rfl
  · -- An instruction stands in one block, so no two blocks list the same creation.
    refine hnodup.imp fun {b c} hne i hb hc => hne ?_
    obtain ⟨inst, hi, -, rfl⟩ := hlinked.mem_creationsIn.1 hb
    obtain ⟨inst', hi', -, rfl⟩ := hlinked.mem_creationsIn.1 hc
    rw [Option.some.inj (hi.symm.trans hi')]
  · simp only [List.mem_flatMap, hreach, hlinked.mem_creationsIn]
    constructor
    · rintro ⟨_, hb, inst, hi, hop, rfl⟩
      exact ⟨inst, hi, hop, hb⟩
    · rintro ⟨inst, hi, hop, hb⟩
      exact ⟨_, hb, inst, hi, hop, rfl⟩

end Edit

/-- Promotion leaves the cell alone. -/
def Func.Spares (captured : Bool) (f : Func) (i : InstId) : Prop :=
  ∃ why, ((Edit.promoteCell captured i).apply f).1 = .ok (.skipped why)

theorem Func.Coherent.spares_iff (hf : f.Coherent)
    (hd : f.computeDominance f.dominanceLimit = .ok d) :
    f.Spares captured i ↔ ∃ why, f.promotable captured d i = .ok (.error why) := by
  have hverdict : Func.promotable { f with dominance := some d } captured d i =
      f.promotable captured d i := rfl
  unfold Spares
  simp only [Edit.promoteCell, Edit.apply_bind, Edit.dominance_apply hf hd, Edit.apply_query,
    hverdict]
  rcases f.promotable captured d i with err | why | cell
  · simp
  · exact iff_of_true ⟨why, rfl⟩ ⟨why, rfl⟩
  · refine iff_of_false ?_ ?_
    · -- A cell that is accepted is promoted, or the edit fails.
      rintro ⟨why, hwhy⟩
      simp only [Edit.apply_bind] at hwhy
      split at hwhy
      · split at hwhy
        · cases hwhy
        · cases hwhy
      · cases hwhy
    · rintro ⟨why, hwhy⟩
      cases Except.ok.inj hwhy

theorem Func.Spares.sameButCache (h : f.Spares captured i) (hf : f.Coherent) (hg : g.Coherent)
    (hfg : f.SameButCache g) : g.Spares captured i := by
  obtain ⟨why, hwhy⟩ := h
  rcases Edit.dominance_yields hf with ⟨err, herr⟩ | ⟨d, -, -, hd, -⟩
  · rw [Edit.promoteCell, Edit.apply_bind, herr] at hwhy
    cases hwhy
  · obtain ⟨x, rfl⟩ := hfg
    exact (hg.spares_iff (d := d) hd).2 ((hf.spares_iff hd).1 ⟨why, hwhy⟩)

theorem Func.Swept.congr (h : f.Swept) (hgraph : g.blockGraph = f.blockGraph)
    (hentry : g.entry = f.entry) (hblocks : ∀ b, g.hasBlock b = f.hasBlock b) : g.Swept := by
  intro b hb
  rw [Func.Reachable, hgraph, hentry]
  exact h b ((hblocks b).symm.trans hb)

def Func.Settled (captured : Bool) (f : Func) : Prop := ∀ i, f.Creates i → f.Spares captured i

theorem Promoted.creates {cell : Cell} (hg : Promoted f d cell g) (hne : i ≠ cell.creation)
    (hi : f.Creates i) : g.Creates i := by
  obtain ⟨joins, -, hdissolved, -⟩ := hg
  obtain ⟨old, hold, hop⟩ := hi
  cases hinst : g.insts.get? i with
  | none =>
    rcases hdissolved.stage.gone i old hold hinst with rfl | ⟨-, hload | hstore⟩
    · exact absurd rfl hne
    · rw [hop] at hload
      cases hload
    · rw [hop] at hstore
      cases hstore
  | some inst' =>
    obtain ⟨old', hold', hshape, -⟩ := hdissolved.stage.inst i inst' hinst
    obtain rfl := Option.some.inj (hold.symm.trans hold')
    exact ⟨inst', hinst, (congrArg Inst.opcode hshape).trans hop⟩

/-- A try of a cell comes to a decision, and takes away no other cell. -/
theorem Edit.promoteCell_fit (hf : f.Fit limit) (captured : Bool) (hi : f.Creates i) :
    (promoteCell captured i).Ensures f fun outcome g =>
      g.Fit limit ∧ (f.Swept → g.Swept) ∧ (∀ j ≠ i, f.Creates j → g.Creates j) ∧
        ∀ why, outcome = .skipped why → f.SameButCache g ∧ f.Spares captured i := by
  obtain ⟨inst, hinst, -⟩ := hi
  have hlive : f.insts.contains i = true := Option.isSome_iff_exists.2 ⟨inst, hinst⟩
  obtain ⟨d, ha, outcome, g, hrun, hg⟩ := promoteCell_ensures hf.built hf.verifies captured hlive
  have hbuilt : g.Built := by
    have hkeeps := promoteCell_keeps (fun c _ hk => hk.run c) captured i f hf.built
    rwa [hrun] at hkeeps
  refine ⟨outcome, g, hrun, ?_⟩
  cases outcome with
  | skipped why =>
    have hsame : f.SameButCache g := ⟨some d, hg⟩
    refine ⟨hf.sameButCache hsame hbuilt, fun hs => hs.sameButCache hsame, fun j _ hj => ?_,
      fun _ _ => ⟨hsame, why, by rw [hrun]⟩⟩
    rw [hg]
    exact hj
  | promoted how =>
    obtain ⟨cell, rfl, hg⟩ := hg
    have hv := hg.verify ha
    have hother : ∀ j ≠ cell.creation, f.Creates j → g.Creates j := fun j hne hj =>
      hg.creates hne hj
    obtain ⟨joins, hp, hdissolved, -⟩ := hg
    have hs := hdissolved.stage
    refine ⟨⟨hbuilt, hv, hs.limit.trans hf.limit_eq, hs.size.trans_le hf.size⟩, fun hswept => ?_,
      hother, nofun⟩
    exact Func.Swept.congr (f := { f with dominance := some d }) hswept (hs.blockGraph hp) hs.entry
      hs.hasBlock

end Midend
