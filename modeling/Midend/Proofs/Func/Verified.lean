import Midend.Proofs.Edit.Sound
import Midend.Proofs.OrderedMap

namespace Midend

namespace Func

variable {f : Func} {d : Dominance}

/-- The findings of the verifier that concern reachable code are empty. -/
structure Verified (f : Func) (d : Dominance) : Prop where
  dominance : d.IsOf f
  operand : ∀ b data k i inst v, d.isReachable b = true → f.blocks.get? b = some data →
    data.insts[k]? = some i → f.insts.get? i = some inst → v ∈ inst.operands →
    f.availableAt d v b (some k) = true
  source : ∀ b data p phi pred v, f.blocks.get? b = some data → p ∈ data.phis →
    f.phis.get? p = some phi → phi.source pred = some v → d.isReachable pred = true →
    f.availableAt d v pred none = true
  keys : ∀ b data p phi q, d.isReachable b = true → f.blocks.get? b = some data →
    p ∈ data.phis → f.phis.get? p = some phi →
    ((∃ v, phi.source q = some v) ↔ q ∈ f.predecessors b ∧ d.isReachable q = true)

theorem blockViolations_eq_nil (h : f.violations (some d) = []) {b : BlockId} {data : Block}
    (hb : f.blocks.get? b = some data) : f.blockViolations (some d) b = [] := by
  simp only [violations, List.append_eq_nil_iff, List.flatMap_eq_nil_iff] at h
  exact h.1.2 b (mem_blockIds.2 (hasBlock_iff.2 ⟨data, hb⟩))

theorem instBreaches_eq_nil (h : f.violations (some d) = []) {b : BlockId} {data : Block} {k : Nat}
    {i : InstId} (hb : f.blocks.get? b = some data) (hk : data.insts[k]? = some i) :
    f.instBreaches (some d) b data k i = [] := by
  have hblock := blockViolations_eq_nil h hb
  simp only [blockViolations, hb, List.append_eq_nil_iff, List.flatMap_eq_nil_iff,
    List.map_eq_nil_iff] at hblock
  exact hblock.2 (i, k) (List.mem_zipIdx_iff_getElem?.2 hk)

theorem phiBreaches_eq_nil (h : f.violations (some d) = []) {b : BlockId} {data : Block}
    {p : PhiId} (hb : f.blocks.get? b = some data) (hp : p ∈ data.phis) :
    f.phiBreaches (some d) b p = [] := by
  have hblock := blockViolations_eq_nil h hb
  simp only [blockViolations, hb, List.append_eq_nil_iff, List.flatMap_eq_nil_iff,
    List.map_eq_nil_iff] at hblock
  exact hblock.1.2 p hp

/-- An operand without breaches is live, and available at its use if that can be reached. -/
theorem operand_of_violations (h : f.violations (some d) = []) {b : BlockId} {data : Block} {k : Nat}
    {i : InstId} {inst : Inst} {v : ValueId} (hb : f.blocks.get? b = some data)
    (hk : data.insts[k]? = some i) (hi : f.insts.get? i = some inst) (hv : v ∈ inst.operands) :
    f.values.contains v = true ∧
      (d.isReachable b = true → f.availableAt d v b (some k) = true) := by
  have hinst := instBreaches_eq_nil h hb hk
  simp only [instBreaches, hi, List.append_eq_nil_iff, List.flatMap_eq_nil_iff] at hinst
  have hop := hinst.2 v hv
  unfold operandBreaches at hop
  split at hop
  · cases hop
  · simp only [List.append_eq_nil_iff] at hop
    refine ⟨?_, fun hr => by simpa [hr] using hop.2⟩
    rw [Arena.contains, ‹f.values.get? v = some _›]
    rfl

theorem source_of_violations (h : f.violations (some d) = []) {b : BlockId} {data : Block}
    {p : PhiId} {phi : Phi} {pred : BlockId} {v : ValueId} (hb : f.blocks.get? b = some data)
    (hp : p ∈ data.phis) (hphi : f.phis.get? p = some phi) (hv : phi.source pred = some v) :
    f.values.contains v = true ∧
      (d.isReachable pred = true → f.availableAt d v pred none = true) := by
  have hbreach := phiBreaches_eq_nil h hb hp
  simp only [phiBreaches, hphi, List.append_eq_nil_iff, List.flatMap_eq_nil_iff] at hbreach
  have hsource := hbreach.1.2 (pred, v) (OrderedMap.mem_toList.2 hv)
  unfold sourceBreaches at hsource
  split at hsource
  · cases hsource
  · simp only [List.append_eq_nil_iff] at hsource
    refine ⟨?_, fun hr => by simpa [hr] using hsource.2⟩
    rw [Arena.contains, ‹f.values.get? v = some _›]
    rfl

theorem verified_of_violations (hd : d.IsOf f) (h : f.violations (some d) = []) :
    f.Verified d where
  dominance := hd
  operand _ _ _ _ _ _ hr hb hk hi hv := (operand_of_violations h hb hk hi hv).2 hr
  source _ _ _ _ _ _ hb hp hphi hv hr := (source_of_violations h hb hp hphi hv).2 hr
  keys b data p phi q hr hb hp hphi := by
    have hbreach := phiBreaches_eq_nil h hb hp
    simp only [phiBreaches, hphi, List.append_eq_nil_iff, keyBreaches, hr, if_true,
      List.map_eq_nil_iff, List.filter_eq_nil_iff] at hbreach
    obtain ⟨-, hmissing, hextra⟩ := hbreach
    have hkey : q ∈ phi.sources.keys ↔ ∃ v, phi.source q = some v := OrderedMap.mem_keys
    have hpred : q ∈ (f.predecessors b).filter d.isReachable ↔
        q ∈ f.predecessors b ∧ d.isReachable q = true := List.mem_filter
    rw [← hkey, ← hpred]
    constructor
    · exact fun hq => by simpa using hextra q hq
    · exact fun hq => by simpa using hmissing q hq

/-- What operands and sources name is live. -/
structure SlotsLive (f : Func) : Prop where
  operand : ∀ i inst v, f.insts.get? i = some inst → v ∈ inst.operands →
    f.values.contains v = true
  source : ∀ p phi q v, f.phis.get? p = some phi → phi.source q = some v →
    f.values.contains v = true

theorem slotsLive_of_violations (hf : f.Linked fun _ => False)
    (h : f.violations (some d) = []) : f.SlotsLive where
  operand i inst v hi hv := by
    obtain ⟨data, hb, hmem⟩ := hf.inst_listed i inst hi id
    obtain ⟨k, hk⟩ := List.getElem?_of_mem hmem
    exact (operand_of_violations h hb hk hi hv).1
  source p phi q v hp hv := by
    obtain ⟨data, hb, hmem⟩ := hf.phi_listed p phi hp id
    exact (source_of_violations h hb hmem hp hv).1

end Func

namespace Edit

variable {f : Func}

theorem verify_violations (hf : f.Sound) (h : (verify.apply f).1 = .ok ()) :
    ∃ d, dominance.apply f = (.ok d, { f with dominance := some d }) ∧ d.IsOf f ∧
      f.violations (some d) = [] := by
  rw [verify_apply] at h
  rcases dominance_yields hf.coherent with ⟨e, he⟩ | ⟨d, g, hg, hcompute, rfl⟩
  · simp only [he, Except.toOption] at h
    split at h
    · rename_i hempty
      simp [Func.violations] at hempty
    · cases h
  · simp only [hg, Except.toOption] at h
    split at h
    · rename_i hempty
      exact ⟨d, hg, Func.computeDominance_isOf hcompute, List.isEmpty_iff.1 hempty⟩
    · cases h

theorem verify_ok (hf : f.Sound) (h : (verify.apply f).1 = .ok ()) :
    ∃ d, dominance.apply f = (.ok d, { f with dominance := some d }) ∧ f.Verified d := by
  obtain ⟨d, hrun, hd, hnil⟩ := verify_violations hf h
  exact ⟨d, hrun, Func.verified_of_violations hd hnil⟩

end Edit

end Midend
