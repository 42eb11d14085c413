import Midend.Proofs.Promotion.Phis
import Midend.Proofs.Promotion.Pruning

namespace Midend

open Cell

variable {f g h : Func} {d : Dominance} {cell : Cell} {joins : Joins}
  {phiAt : OrderedMap BlockId PhiId} {j : Nat} {inst : Inst}

namespace PhisAt

theorem injective (ha : PhisAt f joins phiAt h) {b c : BlockId} {p : PhiId}
    (hb : phiAt.get? b = some p) (hc : phiAt.get? c = some p) : b = c := by
  obtain ⟨-, phi, hphi, rfl, -⟩ := ha.added b p hb
  obtain ⟨-, phi', hphi', rfl, -⟩ := ha.added c p hc
  rw [Option.some.inj (hphi.symm.trans hphi')]

theorem get?_block (ha : PhisAt f joins phiAt h) (hs : Stage f cell joins h) {p : PhiId} {phi : Phi}
    (hphi : h.phis.get? p = some phi) (hnew : f.phis.get? p = none) :
    phiAt.get? phi.block = some p := by
  rcases hs.phi p phi hphi with ⟨old, hold, -⟩ | ⟨-, hjoin, -⟩
  · rw [hnew] at hold
    cases hold
  · obtain ⟨q, hq⟩ := ha.all _ _ hjoin
    obtain ⟨-, psi, hpsi, -, hjoin'⟩ := ha.added _ q hq
    have hres : psi.result = phi.result := Option.some.inj (hjoin'.symm.trans hjoin)
    obtain ⟨val, hval, hdef⟩ := hs.sound.linked.phi_result p phi hphi
    obtain ⟨val', hval', hdef'⟩ := hs.sound.linked.phi_result q psi hpsi
    rw [hres, hval] at hval'
    obtain rfl := Option.some.inj hval'
    rw [hq, Definition.phi.inj (hdef.symm.trans hdef')]

end PhisAt

theorem Renamed.released (hp : Promoting f d cell joins)
    (hj : (f.instsOf cell.home)[j]? = some (cell.creation, inst))
    (hr : Renamed f cell joins phiAt j (f.Dominates cell.home) h) {dead : List PhiId}
    (hg : Pruning f cell joins h dead dead g) : Released f d cell g := by
  have hvisited : ∀ i inst, f.insts.get? i = some inst → cell.value ∈ inst.operands →
      cell.Visited f j (f.Dominates cell.home) i := by
    intro i inst hi hc
    obtain ⟨m, hm⟩ := hp.sound.linked.exists_getElem?_instsOf hi
    obtain ⟨hdom, hle⟩ := hp.firstIn_le hj hm hc
    exact ⟨_, hdom, mem_firstIn hm hle⟩
  have hunheld := hr.dissolving.stage.unheld hp.toPromotable fun i inst hi hc =>
    hr.dissolving.freed i (hvisited i inst hi hc)
  refine ⟨joins, hp, ⟨hg.stage, fun u => ?_, fun p phi q hphi hnew hq hedge => ?_⟩, ?_⟩
  · cases u with
    | inst i =>
      rw [Func.held_inst, hg.insts, ← Func.held_inst]
      exact hunheld _
    | phi p =>
      rw [Func.held_phi]
      cases hphi : g.phis.get? p with
      | none => rfl
      | some phi =>
        have hnone := hunheld (.phi p)
        rwa [Func.held_phi, hg.get?_phi hphi] at hnone
  · have hat := hr.phis.get?_block hr.dissolving.stage (hg.get?_phi hphi) hnew
    obtain ⟨-, psi, -, -, hjoin⟩ := hr.phis.added _ p hat
    -- A predecessor of a join is below the creation, so the walk has come by it.
    have hdom := (hp.join_below _ _ hjoin).of_step hq hedge
    obtain ⟨chi, hchi, hsource⟩ := hr.sources q phi.block p hdom hedge hat
    rwa [Option.some.inj (hchi.symm.trans (hg.get?_phi hphi))] at hsource
  · rw [hg.insts]
    refine hr.dissolving.pending _ hp.creation_live ?_
    rintro ⟨b, hb, hin⟩
    exact hp.creation_notMem_firstIn hj hb hin

theorem Promotable.mem_stores (hp : Promotable f d cell) {stores : List BlockId}
    (hstores : List.Forall₂ (fun u b => ∃ inst, f.inst u.inst = .ok inst ∧ inst.block = b)
      (cell.uses.filter CellUse.isStore) stores) (y : BlockId) :
    y ∈ stores ↔ ∃ e ∈ f.instsOf y, e.2.opcode = .setRef ∧ cell.value ∈ e.2.operands := by
  constructor
  · intro hy
    obtain ⟨u, hu, inst, hinst, rfl⟩ := exists_of_forall₂ hstores.flip hy
    obtain ⟨hmem, hstore⟩ := List.mem_filter.1 hu
    have hi := Func.inst_eq_ok.1 hinst
    obtain ⟨inst', hi', -, hc, hfits⟩ := hp.isIn.use u hmem
    obtain rfl := Option.some.inj (hi.symm.trans hi')
    obtain ⟨k, hk⟩ := hp.sound.linked.exists_getElem?_instsOf hi
    refine ⟨_, List.mem_of_getElem? hk, ?_, hc⟩
    cases u with
    | store i => exact hfits.1
    | load i => cases hstore
    | capture i => cases hstore
  · rintro ⟨e, he, hop, hc⟩
    obtain ⟨u, hu, heq, hstore⟩ := hp.exists_store he hop hc
    obtain ⟨b, hb, inst, hinst, rfl⟩ :=
      exists_of_forall₂ hstores (List.mem_filter.2 ⟨hu, hstore⟩)
    obtain ⟨-, -, -, hi⟩ := Func.mem_instsOf.1 he
    rw [heq, Func.inst_eq_ok, hi] at hinst
    obtain rfl := Option.some.inj hinst
    rwa [← hp.sound.linked.block_of_instsOf he]

/-- Places phis for a cell and renames below its creation. Returns the phis by block. -/
def Edit.placeAndRename (dom : Dominance) (cell : Cell) : Edit (OrderedMap BlockId PhiId) := do
  let stores ← (cell.uses.filter CellUse.isStore).mapM fun u =>
    return (← query (·.inst u.inst)).block
  let placement := dom.iteratedFrontier (OrderedSet.ofList stores).toList
    (dom.strictlyDominates cell.home)
  let phiAt ← placement.toList.foldlM (fun m b => return m.insert b (← addPhi b)) ∅
  renameFrom dom cell phiAt (dom.tree.table.size + 1) cell.home cell.initial
  return phiAt

theorem Edit.rename_eq (dom : Dominance) (cell : Cell) : rename dom cell = do
    let phiAt ← placeAndRename dom cell
    let removed ← pruneDeadPhis phiAt.values
    return phiAt.size - removed := by
  simp only [rename, placeAndRename, bind_assoc, pure_bind]

/-- Phis on the iterated frontier of the stores, and a walk. -/
theorem Promotable.placeAndRename_ensures (hp : Promotable f d cell) :
    (Edit.placeAndRename d cell).Ensures f fun phiAt h => ∃ joins j inst,
      Promoting f d cell joins ∧ (f.instsOf cell.home)[j]? = some (cell.creation, inst) ∧
      Renamed f cell joins phiAt j (f.Dominates cell.home) h := by
  have hd := hp.verified.dominance
  refine .bind (.mapM_query fun u hu => ?_) ?_
  · obtain ⟨inst, hi, -⟩ := hp.isIn.use u (List.mem_filter.1 hu).1
    exact ⟨inst, Func.inst_eq_ok.2 hi⟩
  rintro stores g ⟨hstores, hg⟩
  rw [hg]
  have hmem : ∀ y, y ∈ (OrderedSet.ofList stores).toList ↔
      ∃ e ∈ f.instsOf y, e.2.opcode = .setRef ∧ cell.value ∈ e.2.operands := fun y => by
    rw [OrderedSet.mem_toList, OrderedSet.mem_ofList, hp.mem_stores hstores]
  obtain ⟨hbelow, hclosed⟩ := hp.placement_spec (OrderedSet.ofList stores).toList
  simp only [hmem] at hclosed
  refine .bind (Placed.all_ensures hp.sound hp.slots (OrderedSet.toList_nodup _) fun b hb => ?_)
    fun phiAt g₁ hplaced => ?_
  · have hreach := (hbelow b (OrderedSet.mem_toList.1 hb)).2.reaches
    exact Func.hasBlock_iff.2 (hp.sound.linked.live_of_isReachable hd (hd.isReachable_iff.2 hreach))
  have hq := hplaced.promoting hp (fun b hb => hbelow b (OrderedSet.mem_toList.1 hb)) hclosed
  obtain ⟨j, inst, hj, -⟩ := hq.creation_place
  have hfuel : d.tree.table.size <
      d.tree.table.size + 1 + f.blockGraph.toFlowGraph.place d.tree.entry cell.home := by omega
  refine .bind (renameFrom_ensures hq hj hfuel (hplaced.renamed hq j) (.refl hq.home_reachable)
    (fun c hc hlt => (hlt.not_dominates hc).elim) (fun _ _ => id) fun _ => ?_) fun _ g₂ hr => ?_
  · rw [firstIn, if_pos rfl]
    exact ⟨hq.copies_of_holds (.created hj), hq.lasting_initial⟩
  simp only [false_or] at hr
  exact .pure ⟨_, j, inst, hq, hj, hr⟩

namespace Renamed

variable {done : BlockId → Prop}

theorem mem_values_iff (hr : Renamed f cell joins phiAt j done h) {p : PhiId} :
    p ∈ phiAt.values ↔ f.phis.get? p = none ∧ h.phis.contains p = true := by
  rw [OrderedMap.mem_values]
  constructor
  · rintro ⟨b, hb⟩
    obtain ⟨hnew, phi, hphi, -⟩ := hr.phis.added b p hb
    exact ⟨hnew, Option.isSome_iff_exists.2 ⟨phi, hphi⟩⟩
  · rintro ⟨hnew, hlive⟩
    obtain ⟨phi, hphi⟩ := Option.isSome_iff_exists.1 hlive
    exact ⟨phi.block, hr.phis.get?_block hr.dissolving.stage hphi hnew⟩

theorem values_nodup (hr : Renamed f cell joins phiAt j done h) : phiAt.values.Nodup :=
  OrderedMap.values_nodup _ fun _ _ _ hb hc => hr.phis.injective hb hc

theorem pruneDeadPhis_ensures (hp : Promoting f d cell joins)
    (hr : Renamed f cell joins phiAt j done h) :
    (Edit.pruneDeadPhis phiAt.values).Ensures h fun removed g =>
      let dead := phiAt.values.filter fun p => !g.phis.contains p
      Pruning f cell joins h dead dead g ∧ removed = dead.length ∧
        ∀ p ∈ phiAt.values, g.phis.contains p = true ↔ h.Observed phiAt.values p :=
  hr.dissolving.stage.pruneDeadPhis_ensures hp hr.values_nodup fun _ => hr.mem_values_iff.1

end Renamed

theorem Promotable.rename_ensures (hp : Promotable f d cell) :
    (Edit.rename d cell).Ensures f fun _ g => Released f d cell g := by
  rw [Edit.rename_eq]
  refine .bind hp.placeAndRename_ensures fun phiAt h hrenamed => ?_
  obtain ⟨joins, j, inst, hq, hj, hr⟩ := hrenamed
  refine .bind (hr.pruneDeadPhis_ensures hq) fun _ g hg => .pure ?_
  obtain ⟨hpruning, -, -⟩ := hg
  exact hr.released hq hj hpruning

/-- The cell can be taken out of its uses in one of the five ways. -/
theorem Promotable.dissolve_ensures (hp : Promotable f d cell) :
    (Edit.dissolve d cell).Ensures f fun _ g => Released f d cell g := by
  unfold Edit.dissolve
  split
  · rename_i hnone
    exact .pure (hp.unused (List.isEmpty_iff.1 hnone))
  split
  · rename_i hno
    have hloads : ∀ u ∈ cell.uses, u.isStore = false := by simpa using hno
    exact .bind (hp.readOnly_ensures hloads) fun _ g hg => .pure hg
  split
  · rename_i hall
    exact .bind (hp.writeOnly_ensures (List.all_eq_true.1 hall)) fun _ g hg => .pure hg
  refine .bind (.mapM_query fun u hu => ?_) ?_
  · obtain ⟨inst, hi, -⟩ := hp.isIn.use u hu
    exact ⟨inst, Func.inst_eq_ok.2 hi⟩
  rintro blocks g ⟨hblocks, hg⟩
  rw [hg]
  split
  · rename_i hall
    have hhome : ∀ i inst, f.insts.get? i = some inst → cell.value ∈ inst.operands →
        inst.block = cell.home := by
      intro i inst hi hc
      obtain ⟨u, hu, rfl⟩ := hp.isIn.listed i inst hi hc
      obtain ⟨b, hb, inst', hi', rfl⟩ := exists_of_forall₂ hblocks hu
      obtain rfl := Option.some.inj (hi.symm.trans (Func.inst_eq_ok.1 hi'))
      exact of_decide_eq_true (List.all_eq_true.1 hall _ hb)
    exact hp.inBlock_ensures hhome
  · exact .bind hp.rename_ensures fun _ g hg => .pure hg

def Promoted (f : Func) (d : Dominance) (cell : Cell) (g : Func) : Prop :=
  ∃ joins, Promoting f d cell joins ∧ Dissolved f cell joins g ∧
    g.insts.get? cell.creation = none

/-- The creation goes last, as nothing uses the cell any more. -/
theorem Released.removeInst_ensures (hr : Released f d cell h) :
    (Edit.removeInst cell.creation).Ensures h fun _ g => Promoted f d cell g ∧
      g.insts = h.insts.erase cell.creation ∧ g.phis = h.phis := by
  obtain ⟨joins, hp, hd, hlive⟩ := hr
  obtain ⟨inst, hi, -, hres, -⟩ := hp.isIn.creation
  refine (hd.stage.removeInst_ensures hp.toPromotable hi hlive (.inl rfl) fun v u hv => ?_).imp ?_
  · rw [hres] at hv
    exact Option.some.inj hv ▸ hd.unheld u
  · rintro _ g ⟨hstage, hkeep, hinsts, hphis⟩
    refine ⟨⟨joins, hp, ⟨hstage, fun u => hkeep.held u (hd.unheld u), fun p phi q hphi => ?_⟩, ?_⟩,
      hinsts, hphis⟩
    · exact hd.complete p phi q (hphis ▸ hphi)
    · rw [hinsts, Arena.get?_erase, if_pos rfl]

structure Func.Accepted (f : Func) (d : Dominance) : Prop where
  sound : f.Sound
  formed : f.Formed
  slots : f.SlotsLive
  cached : f.dominance = some d
  clean : f.violations (some d) = []
  verified : f.Verified d

theorem Func.Built.accepted (hf : f.Built) (hv : (Edit.verify.apply f).1 = .ok ()) :
    ∃ d, Edit.dominance.apply f = (.ok d, { f with dominance := some d }) ∧
      Func.Accepted { f with dominance := some d } d := by
  obtain ⟨d, hrun, hd, hclean⟩ := Edit.verify_violations hf.sound hv
  have hsound := Edit.dominance_sound hf.sound
  rw [hrun] at hsound
  have hof : d.IsOf { f with dominance := some d } := ⟨hd.graph, hd.entry, hd.tree, hd.frontiers⟩
  have hslots := Func.slotsLive_of_violations hf.sound.linked hclean
  exact ⟨d, hrun, hsound, hf.formed, ⟨hslots.operand, hslots.source⟩, rfl, hclean,
    Func.verified_of_violations hof hclean⟩

def Edit.takeOut (d : Dominance) (cell : Cell) : Edit Outcome := do
  let how ← dissolve d cell
  removeInst cell.creation
  return .promoted how

theorem Promotable.takeOut_ensures (hp : Promotable f d cell) :
    (Edit.takeOut d cell).Ensures f fun outcome g =>
      (∃ how, outcome = .promoted how) ∧ Promoted f d cell g :=
  .bind hp.dissolve_ensures fun how _ hg => .bind hg.removeInst_ensures fun _ _ hg' =>
    .pure ⟨⟨how, rfl⟩, hg'.1⟩

theorem Edit.promoteCell_cases (hf : f.Built) (hv : (verify.apply f).1 = .ok ())
    (captured : Bool) {i : InstId} (hi : f.insts.contains i = true) :
    ∃ d, Func.Accepted { f with dominance := some d } d ∧
      ((∃ why, Func.promotable { f with dominance := some d } captured d i = .ok (.error why) ∧
        (promoteCell captured i).apply f = (.ok (.skipped why), { f with dominance := some d })) ∨
      ∃ cell, cell.creation = i ∧
        Verdict.Accepts (Func.promotable { f with dominance := some d } captured d i) cell ∧
        Promotable { f with dominance := some d } d cell ∧
        (promoteCell captured i).apply f =
          (takeOut d cell).apply { f with dominance := some d }) := by
  obtain ⟨d, hrun, ha⟩ := hf.accepted hv
  refine ⟨d, ha, ?_⟩
  obtain ⟨verdict, hverdict⟩ := Func.promotable_answers ha.sound captured d (i := i) hi
  replace hverdict : Func.promotable { f with dominance := some d } captured d i = .ok verdict :=
    hverdict
  simp only [promoteCell, apply_bind, hrun, apply_query, hverdict]
  cases verdict with
  | error why => exact .inl ⟨why, rfl, rfl⟩
  | ok cell =>
    obtain ⟨rfl, hcell⟩ := Func.promotable_accepts ha.sound hverdict
    refine .inr ⟨cell, rfl, rfl, ⟨ha.sound, ha.formed, ha.slots, ha.verified, hcell⟩, ?_⟩
    simp only [takeOut, apply_bind]

/-- Promotion of a live instruction comes to a decision; only where it promotes does it change
more than the cached dominance. -/
theorem Edit.promoteCell_ensures (hf : f.Built) (hv : (verify.apply f).1 = .ok ())
    (captured : Bool) {i : InstId} (hi : f.insts.contains i = true) :
    ∃ d, Func.Accepted { f with dominance := some d } d ∧
      (promoteCell captured i).Ensures f fun outcome g =>
        match outcome with
        | .skipped _ => g = { f with dominance := some d }
        | .promoted _ => ∃ cell, cell.creation = i ∧
            Promoted { f with dominance := some d } d cell g := by
  obtain ⟨d, ha, hcases⟩ := promoteCell_cases hf hv captured hi
  refine ⟨d, ha, ?_⟩
  rcases hcases with ⟨why, -, hrun⟩ | ⟨cell, rfl, -, hp, hrun⟩
  · exact ⟨_, _, hrun, rfl⟩
  · obtain ⟨_, g, hrun', ⟨how, rfl⟩, hg⟩ := hp.takeOut_ensures
    exact ⟨_, g, hrun.trans hrun', cell, rfl, hg⟩

end Midend
