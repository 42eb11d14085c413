import Midend.Proofs.Edit.Built

namespace Midend.Func

variable {f : Func} {b : BlockId} {data : Block} {i : InstId} {inst : Inst} {p : PhiId} {phi : Phi}

theorem Linked.count_insts (h : f.Linked fun _ => False) (hi : f.insts.get? i = some inst)
    (hb : f.blocks.get? b = some data) :
    data.insts.count i = if inst.block = b then 1 else 0 := by
  have hiff : i ∈ data.insts ↔ inst.block = b := by
    refine ⟨fun hlisted => ?_, fun hblock => ?_⟩
    · obtain ⟨inst', hi', hblock⟩ := h.listed_inst b data i hb hlisted
      exact Option.some.inj (hi.symm.trans hi') ▸ hblock
    · obtain ⟨home, hhome, hmem⟩ := h.inst_listed i inst hi id
      exact Option.some.inj (hhome.symm.trans (hblock ▸ hb)) ▸ hmem
  rw [(h.insts_nodup b data hb).count]
  exact if_congr hiff rfl rfl

theorem Linked.count_phis (h : f.Linked fun _ => False) (hp : f.phis.get? p = some phi)
    (hb : f.blocks.get? b = some data) :
    data.phis.count p = if phi.block = b then 1 else 0 := by
  have hiff : p ∈ data.phis ↔ phi.block = b := by
    refine ⟨fun hlisted => ?_, fun hblock => ?_⟩
    · obtain ⟨phi', hp', hblock⟩ := h.listed_phi b data p hb hlisted
      exact Option.some.inj (hp.symm.trans hp') ▸ hblock
    · obtain ⟨home, hhome, hmem⟩ := h.phi_listed p phi hp id
      exact Option.some.inj (hhome.symm.trans (hblock ▸ hb)) ▸ hmem
  rw [(h.phis_nodup b data hb).count]
  exact if_congr hiff rfl rfl

theorem Linked.terminator_place (h : f.Linked fun _ => False) (hb : f.blocks.get? b = some data)
    {k : Nat} (hk : data.insts[k]? = some i) (hi : f.insts.get? i = some inst)
    (hterm : inst.isTerminator = true) : k + 1 = data.insts.length := by
  have hlast := h.terminator_last b data i inst hb (List.mem_of_getElem? hk) hi hterm
  rw [List.getLast?_eq_getElem?] at hlast
  obtain ⟨hlt, -⟩ := List.getElem?_eq_some_iff.1 hk
  have heq := (List.getElem?_inj hlt (h.insts_nodup b data hb)).1 (hk.trans hlast.symm)
  omega

/-- What the tables of a function agree on after any sequence of calls, failed ones included: use
lists count the slots of live users, each live instruction or phi is listed once and by its own
block, results and definitions name each other, terminators stand last, and targets are live. -/
theorem built_representation (f : Func) (h : f.Built) :
    (∀ v val, f.values.get? v = some val →
      (∀ i, val.usesBy (.inst i) =
        ((f.insts.get? i).map fun inst => inst.operands.count v).getD 0) ∧
      ∀ p, val.usesBy (.phi p) =
        ((f.phis.get? p).map fun phi => phi.sources.values.count v).getD 0) ∧
    ((∀ i inst, f.insts.get? i = some inst → (∃ data, f.blocks.get? inst.block = some data) ∧
        ∀ b data, f.blocks.get? b = some data →
          data.insts.count i = if inst.block = b then 1 else 0) ∧
      (∀ p phi, f.phis.get? p = some phi → (∃ data, f.blocks.get? phi.block = some data) ∧
        ∀ b data, f.blocks.get? b = some data →
          data.phis.count p = if phi.block = b then 1 else 0) ∧
      ∀ b data, f.blocks.get? b = some data →
        (∀ i ∈ data.insts, f.insts.contains i = true) ∧
        ∀ p ∈ data.phis, f.phis.contains p = true) ∧
    (∀ v i, (∃ inst, f.insts.get? i = some inst ∧ inst.result = some v) ↔
        ∃ val, f.values.get? v = some val ∧ val.definition = .inst i) ∧
    (∀ v p, (∃ phi, f.phis.get? p = some phi ∧ phi.result = v) ↔
        ∃ val, f.values.get? v = some val ∧ val.definition = .phi p) ∧
    (∀ b data k i inst, f.blocks.get? b = some data → data.insts[k]? = some i →
      f.insts.get? i = some inst → inst.isTerminator = true → k + 1 = data.insts.length) ∧
    (∀ i inst t, f.insts.get? i = some inst → t ∈ inst.opcode.targets →
      f.hasBlock t = true) ∧
    f.hasBlock f.entry = true := by
  obtain ⟨hlinked, huses, -⟩ := h.sound
  refine ⟨fun v val hv => ⟨fun i => huses.uses v val (.inst i) hv,
    fun p => huses.uses v val (.phi p) hv⟩, ⟨?_, ?_, ?_⟩, ?_, ?_, ?_, ?_, ?_⟩
  · intro i inst hi
    obtain ⟨home, hhome, -⟩ := hlinked.inst_listed i inst hi id
    exact ⟨⟨home, hhome⟩, fun b data hb => hlinked.count_insts hi hb⟩
  · intro p phi hp
    obtain ⟨home, hhome, -⟩ := hlinked.phi_listed p phi hp id
    exact ⟨⟨home, hhome⟩, fun b data hb => hlinked.count_phis hp hb⟩
  · intro b data hb
    refine ⟨fun i hi => ?_, fun p hp => ?_⟩
    · obtain ⟨inst, hget, -⟩ := hlinked.listed_inst b data i hb hi
      exact Option.isSome_iff_exists.2 ⟨inst, hget⟩
    · obtain ⟨phi, hget, -⟩ := hlinked.listed_phi b data p hb hp
      exact Option.isSome_iff_exists.2 ⟨phi, hget⟩
  · intro v i
    constructor
    · rintro ⟨inst, hi, hv⟩
      exact hlinked.inst_result i inst v hi hv
    · rintro ⟨val, hv, hdef⟩
      exact hlinked.inst_origin v val i hv hdef
  · intro v p
    constructor
    · rintro ⟨phi, hp, rfl⟩
      exact hlinked.phi_result p phi hp
    · rintro ⟨val, hv, hdef⟩
      exact hlinked.phi_origin v val p hv hdef
  · exact fun b data k i inst hb hk hi hterm => hlinked.terminator_place hb hk hi hterm
  · exact fun i inst t hi ht => hasBlock_iff.2 (hlinked.target_live i inst t hi id ht)
  · exact hasBlock_iff.2 hlinked.entry_live

/-- A loop whose phi feeds itself and an addition twice. The first call that would take the phi away
fails, as does a second terminator; one of the operands is replaced in the end. -/
def selfFeeding : List Call :=
  [.addArgument, .addBlock, .append ⟨0⟩ (.branch ⟨1⟩) [], .addPhi ⟨1⟩, .setPhiSource ⟨0⟩ ⟨0⟩ ⟨0⟩,
    .setPhiSource ⟨0⟩ ⟨1⟩ ⟨1⟩, .appendValue ⟨1⟩ (.binary .add) [⟨1⟩, ⟨1⟩], .removePhi ⟨0⟩,
    .append ⟨1⟩ (.branch ⟨1⟩) [], .append ⟨1⟩ (.branch ⟨0⟩) [], .setOperand ⟨1⟩ 0 ⟨0⟩]

theorem selfFeeding_representation :
    ∃ (f : Func) (val : Value), f.Built ∧ f.values.get? ⟨1⟩ = some val ∧
      val.usesBy (.phi ⟨0⟩) = 1 ∧ val.usesBy (.inst ⟨1⟩) = 1 ∧ val.usesBy (.inst ⟨3⟩) = 0 := by
  let f : Func := selfFeeding.foldl (fun f c => c.run f) (Func.new "f")
  have hf : f.Built := ⟨"f", selfFeeding, rfl⟩
  have hlive : (f.values.get? ⟨1⟩).isSome = true := by decide +kernel
  obtain ⟨val, hval⟩ := Option.isSome_iff_exists.1 hlive
  obtain ⟨hinst, hphi⟩ := (built_representation f hf).1 ⟨1⟩ val hval
  refine ⟨f, val, hf, hval, (hphi ⟨0⟩).trans ?_, (hinst ⟨1⟩).trans ?_, (hinst ⟨3⟩).trans ?_⟩
  all_goals decide +kernel

end Midend.Func
