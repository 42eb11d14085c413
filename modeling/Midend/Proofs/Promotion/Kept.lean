import Midend.Proofs.Promotion.WellFormed

namespace Midend

open Cell

/-- The function `g` that is left of `f` when the phis `ours` have been placed in it, which gives
`h`, and `n` of them have been kept. -/
structure Func.KeepsObserved (f h : Func) (ours : List PhiId) (n : Nat) (g : Func) : Prop where
  placed : ∀ p, p ∈ ours ↔ f.phis.get? p = none ∧ h.phis.contains p = true
  nodup : ours.Nodup
  kept_iff : ∀ p ∈ ours, g.phis.contains p = true ↔ h.Observed ours p
  observed : ∀ p ∈ ours, g.phis.contains p = true → g.Observed ours p
  count : n = (ours.filter g.phis.contains).length
  only : ∀ p, g.phis.contains p = true → f.phis.contains p = true ∨ p ∈ ours
  old : ∀ p old, f.phis.get? p = some old → ∃ phi, g.phis.get? p = some phi ∧
    phi.shape = old.shape ∧ ∀ q, (phi.source q).isSome = (old.source q).isSome

namespace Stage

variable {f g h : Func} {d : Dominance} {cell : Cell} {joins : Joins}

/-- The creation stands above all joins, so it takes none of them. -/
theorem join_notMem_creation (hp : Promoting f d cell joins) (hs : Stage f cell joins h)
    {data : Inst} (hdata : h.insts.get? cell.creation = some data) {b : BlockId} {v : ValueId}
    (hv : joins b = some v) : v ∉ data.operands := by
  intro hmem
  obtain ⟨j, created, hj, hop, -⟩ := hp.creation_place
  obtain ⟨-, -, -, hi⟩ := Func.mem_instsOf.1 (List.mem_of_getElem? hj)
  obtain ⟨inst, hi', -, hreads⟩ := hs.inst _ data hdata
  obtain rfl := Option.some.inj (hi.symm.trans hi')
  rw [hp.sound.linked.block_of_instsOf (List.mem_of_getElem? hj)] at hreads
  obtain ⟨u, -, hsame | ⟨⟨proto, hclosure⟩, -⟩⟩ :=
    exists_of_forall₂ (hreads j hj hp.home_reachable).flip hmem
  · have hbelow := hp.join_below b v hv
    rcases hsame.right _ (.join hv) with ⟨hblock, -⟩ | hdom
    · exact hbelow.1 hblock.symm
    · exact hbelow.not_dominates hdom.2
  · rw [hop] at hclosure
    cases hclosure

theorem old_phi (hs : Stage f cell joins g) {p : PhiId} {old : Phi}
    (hold : f.phis.get? p = some old) : ∃ phi, g.phis.get? p = some phi ∧
      phi.shape = old.shape ∧ ∀ q, (phi.source q).isSome = (old.source q).isSome := by
  obtain ⟨phi, hphi⟩ := hs.kept p old hold
  rcases hs.phi p phi hphi with ⟨old', hold', hshape, hsame⟩ | ⟨hnew, -⟩
  · obtain rfl := Option.some.inj (hold.symm.trans hold')
    refine ⟨phi, hphi, hshape, fun q => ?_⟩
    rw [Bool.eq_iff_iff, Option.isSome_iff_exists, Option.isSome_iff_exists]
    exact isSome_of_rel (hsame q)
  · rw [hold] at hnew
    cases hnew

/-- A phi that is observed before the pruning is observed in the end, as what observes it stays. -/
theorem observed_of_pruned (hp : Promoting f d cell joins) (hs : Stage f cell joins h)
    {ours : List PhiId} (hours : ∀ p ∈ ours, f.phis.get? p = none)
    (hinst : ∀ i ≠ cell.creation, g.insts.get? i = h.insts.get? i)
    (hphi : ∀ p, (p ∈ ours → h.Observed ours p) → g.phis.get? p = h.phis.get? p) {p : PhiId}
    (hmem : p ∈ ours) (ho : h.Observed ours p) : g.Observed ours p := by
  have hkept : ∀ {p phi}, h.phis.get? p = some phi → h.Observed ours p →
      g.phis.get? p = some phi := fun {p _} hget ho => by rw [hphi p fun _ => ho, hget]
  induction ho with
  | @inst p phi i inst hp' hi hv =>
    have hne : i ≠ cell.creation := by
      rintro rfl
      rcases hs.phi p phi hp' with ⟨old, hold, -⟩ | ⟨-, hjoin, -⟩
      · rw [hours p hmem] at hold
        cases hold
      · exact hs.join_notMem_creation hp hi hjoin hv
    exact .inst (hkept hp' (.inst hp' hi hv)) ((hinst i hne).trans hi) hv
  | phi hp' hq hv hother =>
    refine .phi (hkept hp' (.phi hp' hq hv hother)) ?_ hv hother
    rw [hphi _ fun hin => absurd hin hother, hq]
  | feeds hp' hq hv hin hobserved ih =>
    exact .feeds (hkept hp' (.feeds hp' hq hv hin hobserved)) (hkept hq hobserved) hv hin (ih hin)

end Stage

theorem Renamed.keepsObserved {f g h k : Func} {d : Dominance} {cell : Cell} {joins : Joins}
    {phiAt : OrderedMap BlockId PhiId} {j removed : Nat} {done : BlockId → Prop}
    (hp : Promoting f d cell joins) (hr : Renamed f cell joins phiAt j done h)
    (hprune : (Edit.pruneDeadPhis phiAt.values).apply h = (.ok removed, k))
    (hinsts : g.insts = k.insts.erase cell.creation) (hphis : g.phis = k.phis) :
    f.KeepsObserved h phiAt.values (phiAt.size - removed) g := by
  obtain ⟨hpruning, hremoved, hkept⟩ := (hr.pruneDeadPhis_ensures hp).of_ok hprune
  rw [← hphis] at hremoved hkept
  have hcount : phiAt.size - removed = (phiAt.values.filter g.phis.contains).length := by
    have hsize : phiAt.size = phiAt.values.length := (List.length_map _).symm
    rw [hremoved, hsize, List.length_eq_length_filter_add g.phis.contains, Nat.add_sub_cancel_right]
  refine ⟨fun p => hr.mem_values_iff, hr.values_nodup, hkept, fun p hmem hlive => ?_, hcount,
    fun p hlive => ?_, fun p old hold => ?_⟩
  · refine hr.dissolving.stage.observed_of_pruned hp (fun q hq => (hr.mem_values_iff.1 hq).1)
      (fun i hi => ?_) (fun q hq => ?_) hmem ((hkept p hmem).1 hlive)
    · rw [hinsts, Arena.get?_erase, if_neg hi, hpruning.insts]
    · rw [hphis, hpruning.kept q fun hdead => ?_]
      obtain ⟨hin, hgone⟩ := List.mem_filter.1 hdead
      rw [← hphis, (hkept q hin).2 (hq hin)] at hgone
      cases hgone
  · rw [hphis] at hlive
    obtain ⟨phi, hphi⟩ := Option.isSome_iff_exists.1 hlive
    cases hold : f.phis.get? p with
    | some old => exact .inl (Option.isSome_iff_exists.2 ⟨old, hold⟩)
    | none =>
      -- Pruning adds no phis, so a new one was placed.
      refine .inr (hr.mem_values_iff.2 ⟨hold, Option.isSome_iff_exists.2 ⟨phi, ?_⟩⟩)
      exact hpruning.get?_phi hphi
  · rw [hphis]
    exact hpruning.stage.old_phi hold

namespace Edit

variable {f g : Func} {d : Dominance} {cell : Cell}

theorem dissolve_across (hp : Promotable f d cell) {n : Nat}
    (h : (dissolve d cell).apply f = (.ok (.acrossBlocks n), g)) :
    (rename d cell).apply f = (.ok n, g) := by
  unfold dissolve at h
  split at h
  · cases h
  split at h
  · obtain ⟨_, _, _, h⟩ := apply_bind_eq_ok.1 h
    cases h
  split at h
  · obtain ⟨_, _, _, h⟩ := apply_bind_eq_ok.1 h
    cases h
  obtain ⟨blocks, f', hblocks, hrest⟩ := apply_bind_eq_ok.1 h
  obtain ⟨-, rfl⟩ := (Ensures.mapM_query fun u hu => by
    obtain ⟨inst, hi, -⟩ := hp.isIn.use u hu
    exact ⟨inst, Func.inst_eq_ok.2 hi⟩).of_ok hblocks
  split at hrest
  · obtain ⟨_, _, _, hrest⟩ := apply_bind_eq_ok.1 hrest
    obtain ⟨_, _, _, hrest⟩ := apply_bind_eq_ok.1 hrest
    cases hrest
  · obtain ⟨n', k, hrename, hrest⟩ := apply_bind_eq_ok.1 hrest
    cases hrest
    exact hrename

theorem takeOut_across (hp : Promotable f d cell) {n : Nat}
    (h : (takeOut d cell).apply f = (.ok (.promoted (.acrossBlocks n)), g)) :
    ∃ phiAt h removed k, (placeAndRename d cell).apply f = (.ok phiAt, h) ∧
      (pruneDeadPhis phiAt.values).apply h = (.ok removed, k) ∧
      (removeInst cell.creation).apply k = (.ok (), g) ∧ n = phiAt.size - removed := by
  obtain ⟨how, k, hdissolve, h⟩ := apply_bind_eq_ok.1 h
  obtain ⟨⟨⟩, g', hremove, h⟩ := apply_bind_eq_ok.1 h
  obtain ⟨hout, rfl⟩ := Prod.mk.inj h
  obtain rfl : how = .acrossBlocks n := by injection hout with hout; injection hout
  have hrename := dissolve_across hp hdissolve
  rw [rename_eq] at hrename
  obtain ⟨phiAt, f', hplace, hrename⟩ := apply_bind_eq_ok.1 hrename
  obtain ⟨removed, k', hprune, hrename⟩ := apply_bind_eq_ok.1 hrename
  obtain ⟨hn, rfl⟩ := Prod.mk.inj hrename
  exact ⟨phiAt, f', removed, k', hplace, hprune, hremove, (Except.ok.inj hn).symm⟩

/-- Pruning is exact. A promotion comes to a decision. If it takes the cell out across blocks, then
of the phis that it places, it keeps those that are observed once everything is renamed; the others
go without an error. The phis from before stay, with sources for the same blocks. -/
theorem promoteCell_keepsObserved (f : Func) (hf : f.Built) (hv : (verify.apply f).1 = .ok ())
    (captured : Bool) (i : InstId) (hi : f.insts.contains i = true) :
    ∃ outcome g, (promoteCell captured i).apply f = (.ok outcome, g) ∧
      ∀ n, outcome = .promoted (.acrossBlocks n) → ∃ dom cell phiAt h removed k,
        dominance.apply f = (.ok dom, { f with dominance := some dom }) ∧
        Verdict.Accepts (Func.promotable { f with dominance := some dom } captured dom i) cell ∧
        (placeAndRename dom cell).apply { f with dominance := some dom } = (.ok phiAt, h) ∧
        (pruneDeadPhis phiAt.values).apply h = (.ok removed, k) ∧
        (removeInst i).apply k = (.ok (), g) ∧ f.KeepsObserved h phiAt.values n g := by
  obtain ⟨d, ha, ⟨why, -, hrun⟩ | ⟨cell, rfl, haccepts, hp, hrun⟩⟩ :=
    promoteCell_cases hf hv captured hi
  · exact ⟨_, _, hrun, nofun⟩
  obtain ⟨outcome, g, htake, -⟩ := hp.takeOut_ensures
  refine ⟨outcome, g, hrun.trans htake, ?_⟩
  rintro n rfl
  obtain ⟨phiAt, h, removed, k, hplace, hprune, hremove, rfl⟩ := takeOut_across hp htake
  obtain ⟨joins, j, inst, hq, hj, hr⟩ := hp.placeAndRename_ensures.of_ok hplace
  obtain ⟨hpruning, -⟩ := (hr.pruneDeadPhis_ensures hq).of_ok hprune
  obtain ⟨-, hinsts, hphis⟩ := (hr.released hq hj hpruning).removeInst_ensures.of_ok hremove
  have hkept := hr.keepsObserved hq hprune hinsts hphis
  exact ⟨d, cell, phiAt, h, removed, k,
    dominance_apply hf.sound.coherent (ha.sound.coherent d ha.cached), haccepts, hplace, hprune,
    hremove, hkept.placed, hkept.nodup, hkept.kept_iff, hkept.observed, hkept.count, hkept.only,
    hkept.old⟩

/-- The promotion of a cell as far as the phis are placed and take their sources. -/
def placePhis (captured : Bool) (i : InstId) : Edit (OrderedMap BlockId PhiId) := do
  let dom ← dominance
  match ← query fun f => f.promotable captured dom i with
  | .error _ => return ∅
  | .ok cell => placeAndRename dom cell

/-- A loop that loads and stores a cell, and a second loop behind it without uses of the cell. -/
def loopBehindLoop : List Call :=
  [.addArgument, .addBlock, .addBlock, .addBlock, .addBlock, .appendValue ⟨0⟩ .newRef [⟨0⟩],
    .append ⟨0⟩ (.branch ⟨1⟩) [], .appendValue ⟨1⟩ .getRef [⟨1⟩],
    .append ⟨1⟩ (.condBranch ⟨2⟩ ⟨3⟩) [⟨2⟩], .append ⟨2⟩ .setRef [⟨1⟩, ⟨0⟩],
    .append ⟨2⟩ (.condBranch ⟨1⟩ ⟨3⟩) [⟨0⟩], .append ⟨3⟩ (.condBranch ⟨3⟩ ⟨4⟩) [⟨0⟩],
    .append ⟨4⟩ .ret []]

/-- Each loop gets a phi. That of the second takes its own result and is not observed, so one phi is
kept. -/
theorem loopBehindLoop_keepsObserved :
    ∃ f h g : Func, f = loopBehindLoop.foldl (fun f c => c.run f) (Func.new "f") ∧
      (promoteCell false ⟨0⟩).apply f = (.ok (.promoted (.acrossBlocks 1)), g) ∧
      f.KeepsObserved h [⟨0⟩, ⟨1⟩] 1 g ∧ h.Observed [⟨0⟩, ⟨1⟩] ⟨0⟩ ∧
      ¬ h.Observed [⟨0⟩, ⟨1⟩] ⟨1⟩ ∧
      ∃ phi, h.phis.get? ⟨1⟩ = some phi ∧ phi.source ⟨3⟩ = some phi.result := by
  let f : Func := loopBehindLoop.foldl (fun f c => c.run f) (Func.new "f")
  have hv : (verify.apply f).1 = .ok () := by decide +kernel
  have hi : f.insts.contains ⟨0⟩ = true := by decide +kernel
  have hout : ((promoteCell false ⟨0⟩).apply f).1 = .ok (.promoted (.acrossBlocks 1)) := by
    decide +kernel
  have hfirst : ((promoteCell false ⟨0⟩).apply f).2.phis.contains ⟨0⟩ = true := by decide +kernel
  have hsecond : ((promoteCell false ⟨0⟩).apply f).2.phis.contains ⟨1⟩ = false := by decide +kernel
  have hours : ((placePhis false ⟨0⟩).apply f).1.map (·.values) = .ok [⟨0⟩, ⟨1⟩] := by decide +kernel
  have hself : (((placePhis false ⟨0⟩).apply f).2.phis.get? ⟨1⟩).map (fun phi =>
      decide (phi.source ⟨3⟩ = some phi.result)) = some true := by decide +kernel
  obtain ⟨outcome, g, hrun, hall⟩ :=
    promoteCell_keepsObserved f ⟨"f", loopBehindLoop, rfl⟩ hv false ⟨0⟩ hi
  rw [hrun] at hout hfirst hsecond
  obtain rfl := Except.ok.inj hout
  obtain ⟨dom, cell, phiAt, h, -, -, hdom, hcell, hplace, -, -, hkept⟩ := hall 1 rfl
  have hplaced : (placePhis false ⟨0⟩).apply f = (.ok phiAt, h) := by
    have hverdict : Func.promotable { f with dominance := some dom } false dom ⟨0⟩ =
        .ok (.ok cell) := hcell
    simp only [placePhis, apply_bind, hdom, apply_query, hverdict, hplace]
  rw [hplaced] at hours hself
  rw [show phiAt.values = [⟨0⟩, ⟨1⟩] from Except.ok.inj hours] at hkept
  obtain ⟨phi, hphi, hsource⟩ := Option.map_eq_some_iff.1 hself
  refine ⟨f, h, g, rfl, hrun, hkept, (hkept.kept_iff _ (by simp)).1 hfirst, fun hobserved => ?_,
    phi, hphi, of_decide_eq_true hsource⟩
  rw [(hkept.kept_iff _ (by simp)).2 hobserved] at hsecond
  cases hsecond

end Edit

end Midend
