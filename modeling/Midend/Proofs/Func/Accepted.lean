import Midend.Proofs.Edit.SlotsLive
import Midend.Proofs.Func.Sites
import Midend.Proofs.Graph.Convergence

namespace Midend

namespace Func

variable {f : Func} {d : Dominance} {b c : BlockId} {v : ValueId} {data : Block} {k : Nat}

/-- A live value is defined by an instruction or a phi of block `c`. -/
inductive DefinedIn (f : Func) (v : ValueId) : BlockId → Prop where
  | inst {val : Value} {i : InstId} {inst : Inst} : f.values.get? v = some val →
      val.definition = .inst i → f.insts.get? i = some inst → DefinedIn f v inst.block
  | phi {val : Value} {p : PhiId} {phi : Phi} : f.values.get? v = some val →
      val.definition = .phi p → f.phis.get? p = some phi → DefinedIn f v phi.block

/-- If an instruction of block `b` defines the value, it is among the first `k`. -/
def DefinedWithin (f : Func) (v : ValueId) (b : BlockId) (k : Nat) : Prop :=
  ∀ val data i m, f.values.get? v = some val → val.definition = .inst i →
    f.blocks.get? b = some data → data.insts[m]? = some i → m < k

theorem definedIn_of_inst {val : Value} {i : InstId} {inst : Inst} (hv : f.values.get? v = some val)
    (hdef : val.definition = .inst i) (hi : f.insts.get? i = some inst) :
    f.DefinedIn v c ↔ inst.block = c := by
  refine ⟨fun h => ?_, fun hc => hc ▸ .inst hv hdef hi⟩
  cases h with
  | inst hv' hdef' hi' =>
    obtain rfl := Option.some.inj (hv.symm.trans hv')
    obtain rfl := Definition.inst.inj (hdef.symm.trans hdef')
    exact congrArg Inst.block (Option.some.inj (hi.symm.trans hi'))
  | phi hv' hdef' _ =>
    obtain rfl := Option.some.inj (hv.symm.trans hv')
    cases hdef.symm.trans hdef'

theorem definedIn_of_phi {val : Value} {p : PhiId} {phi : Phi} (hv : f.values.get? v = some val)
    (hdef : val.definition = .phi p) (hp : f.phis.get? p = some phi) :
    f.DefinedIn v c ↔ phi.block = c := by
  refine ⟨fun h => ?_, fun hc => hc ▸ .phi hv hdef hp⟩
  cases h with
  | inst hv' hdef' _ =>
    obtain rfl := Option.some.inj (hv.symm.trans hv')
    cases hdef.symm.trans hdef'
  | phi hv' hdef' hp' =>
    obtain rfl := Option.some.inj (hv.symm.trans hv')
    obtain rfl := Definition.phi.inj (hdef.symm.trans hdef')
    exact congrArg Phi.block (Option.some.inj (hp.symm.trans hp'))

theorem definedWithin_of_inst {val : Value} {i : InstId} (hv : f.values.get? v = some val)
    (hdef : val.definition = .inst i) : f.DefinedWithin v b k ↔
      ∀ data m, f.blocks.get? b = some data → data.insts[m]? = some i → m < k := by
  refine ⟨fun h data m => h val data i m hv hdef, fun h val' data i' m hv' hdef' => ?_⟩
  obtain rfl := Option.some.inj (hv.symm.trans hv')
  obtain rfl := Definition.inst.inj (hdef.symm.trans hdef')
  exact h data m

theorem definedWithin_of_not_inst {val : Value} (hv : f.values.get? v = some val)
    (hdef : ∀ i, val.definition ≠ .inst i) : f.DefinedWithin v b k := by
  intro val' data i m hv' hdef'
  obtain rfl := Option.some.inj (hv.symm.trans hv')
  exact absurd hdef' (hdef i)

theorem not_definedIn {val : Value} (hv : f.values.get? v = some val)
    (hinst : ∀ i, val.definition ≠ .inst i) (hphi : ∀ p, val.definition ≠ .phi p) :
    ¬ f.DefinedIn v c := by
  intro h
  cases h with
  | inst hv' hdef' _ =>
    obtain rfl := Option.some.inj (hv.symm.trans hv')
    exact hinst _ hdef'
  | phi hv' hdef' _ =>
    obtain rfl := Option.some.inj (hv.symm.trans hv')
    exact hphi _ hdef'

theorem Linked.definedWithin_iff (hf : f.Linked fun _ => False) {val : Value} {i : InstId}
    (hv : f.values.get? v = some val) (hdef : val.definition = .inst i)
    (hdata : f.blocks.get? b = some data) {m : Nat} (hm : data.insts[m]? = some i) :
    f.DefinedWithin v b k ↔ m < k := by
  rw [definedWithin_of_inst hv hdef]
  refine ⟨fun h => h data m hdata hm, fun hmk data' m' hdata' hm' => ?_⟩
  obtain rfl := Option.some.inj (hdata.symm.trans hdata')
  obtain ⟨hlt, -⟩ := List.getElem?_eq_some_iff.1 hm
  have heq := (List.getElem?_inj hlt (hf.insts_nodup _ data hdata)).1 (hm.trans hm'.symm)
  omega

theorem Linked.definedWithin_of_ne (hf : f.Linked fun _ => False) {val : Value} {i : InstId}
    {inst : Inst} (hv : f.values.get? v = some val) (hdef : val.definition = .inst i)
    (hi : f.insts.get? i = some inst) (hne : inst.block ≠ b) : f.DefinedWithin v b k := by
  refine (definedWithin_of_inst hv hdef).2 fun data m hdata hm => ?_
  obtain ⟨inst', hi', hb⟩ := hf.listed_inst b data i hdata (List.mem_of_getElem? hm)
  exact absurd (Option.some.inj (hi.symm.trans hi') ▸ hb) hne

/-- A value is available at a place if its definition dominates the block and, in the block itself,
comes before the place. -/
theorem availableAt_iff (hf : f.Linked fun _ => False) (hd : d.IsOf f)
    (hv : f.values.contains v = true) (hb : f.Reachable b) (position : Option Nat) :
    f.availableAt d v b position = true ↔
      (∀ c, f.DefinedIn v c → f.Dominates c b) ∧ ∀ k, position = some k → f.DefinedWithin v b k := by
  obtain ⟨val, hval⟩ := Option.isSome_iff_exists.1 hv
  have hplain : (∀ i, val.definition ≠ .inst i) → (∀ p, val.definition ≠ .phi p) →
      ((∀ c, f.DefinedIn v c → f.Dominates c b) ∧
        ∀ k, position = some k → f.DefinedWithin v b k) := fun hinst hphi =>
    ⟨fun c hc => absurd hc (not_definedIn hval hinst hphi),
      fun k _ => definedWithin_of_not_inst hval hinst⟩
  unfold availableAt
  rw [hval]
  simp only
  cases hdef : val.definition with
  | argument n =>
    refine iff_of_true rfl (hplain ?_ ?_) <;> simp [hdef]
  | const n =>
    refine iff_of_true rfl (hplain ?_ ?_) <;> simp [hdef]
  | upvalue capture n =>
    refine iff_of_true rfl (hplain ?_ ?_) <;> simp [hdef]
  | phi p =>
    obtain ⟨phi, hp, -⟩ := hf.phi_origin v val p hval hdef
    simp only [definedAt, hp, hd.dominates_iff, definedIn_of_phi hval hdef hp]
    refine ⟨fun h => ⟨fun c hc => hc ▸ h, fun k _ => ?_⟩, fun h => h.1 _ rfl⟩
    exact definedWithin_of_not_inst hval (by simp [hdef])
  | inst i =>
    obtain ⟨inst, hi, -⟩ := hf.inst_origin v val i hval hdef
    obtain ⟨data, hdata, hmem⟩ := hf.inst_listed i inst hi id
    simp only [definedAt, hi, definedIn_of_inst hval hdef hi]
    by_cases hblock : inst.block = b
    · subst hblock
      -- In its own block the result is a matter of places alone.
      have hself : f.Dominates inst.block inst.block := .refl hb
      obtain ⟨m, hm⟩ : ∃ m, data.position i = some m := by
        cases hpos : data.position i with
        | some m => exact ⟨m, rfl⟩
        | none => exact absurd hmem (List.idxOf?_eq_none_iff.1 hpos)
      obtain ⟨hlt, hget, -⟩ := List.idxOf?_eq_some_iff.1 hm
      have hplace : data.insts[m]? = some i := List.getElem?_eq_some_iff.2 ⟨hlt, hget⟩
      cases position with
      | none => simpa using hself
      | some k =>
        simp only [ne_eq, not_true_eq_false, if_false, hdata, Option.bind_some, hm,
          decide_eq_true_eq, Option.some.injEq, forall_eq', hf.definedWithin_iff hval hdef hdata
          hplace]
        exact (and_iff_right hself).symm
    · rw [if_pos hblock, hd.strictlyDominates_iff]
      exact ⟨fun h => ⟨fun c hc => hc ▸ h.2, fun k _ => hf.definedWithin_of_ne hval hdef hi hblock⟩,
        fun h => ⟨hblock, h.1 _ rfl⟩⟩

def Terminated (f : Func) (b : BlockId) : Prop :=
  ∃ data i inst, f.blocks.get? b = some data ∧ data.last = some i ∧ f.insts.get? i = some inst ∧
    inst.isTerminator = true

theorem terminated_of_violations (hf : f.Linked fun _ => False) (h : f.violations (some d) = [])
    (hb : f.hasBlock b = true) : f.Terminated b := by
  obtain ⟨data, hdata⟩ := hasBlock_iff.1 hb
  have hblock := blockViolations_eq_nil h hdata
  simp only [blockViolations, hdata, List.append_eq_nil_iff, endBreaches] at hblock
  have hend := hblock.1.1
  cases hlast : data.last with
  | none =>
    rw [hlast] at hend
    cases hend
  | some i =>
    obtain ⟨inst, hi, -⟩ := hf.listed_inst b data i hdata (List.mem_of_getLast? hlast)
    rw [hlast] at hend
    simp only [hi] at hend
    split at hend
    · exact ⟨data, i, inst, hdata, hlast, hi, ‹_›⟩
    · cases hend

theorem Sound.useViolations_eq_nil (hf : f.Sound) {val : Value} (hv : f.values.get? v = some val)
    {u : User} {n : Nat} (hu : (u, n) ∈ val.users) : f.useViolations v u n = [] := by
  obtain ⟨hcount, hpos⟩ := (Value.mem_users_iff (hf.uses.counted v val hv)).1 hu
  rw [hf.uses.uses v val u hv, held] at hcount
  unfold useViolations
  cases hheld : f.heldBy v u with
  | none =>
    rw [hheld] at hcount
    exact absurd hcount (Nat.ne_of_lt hpos)
  | some m =>
    rw [hheld] at hcount
    exact if_pos hcount

theorem Sound.valueViolations_eq_nil (hf : f.Sound) (v : ValueId) : f.valueViolations v = [] := by
  unfold valueViolations
  cases hv : f.values.get? v with
  | none => rfl
  | some val =>
    simp only [List.append_eq_nil_iff, List.flatMap_eq_nil_iff]
    refine ⟨?_, fun u hu => hf.useViolations_eq_nil hv hu⟩
    unfold originViolations
    cases hdef : val.definition with
    | inst i =>
      obtain ⟨inst, hi, hres⟩ := hf.linked.inst_origin v val i hv hdef
      simp [hi, hres]
    | phi p =>
      obtain ⟨phi, hp, hres⟩ := hf.linked.phi_origin v val p hv hdef
      simp [hp, hres]
    | argument n => rfl
    | const n => rfl
    | upvalue capture n => rfl

theorem Sound.instBreaches_eq_nil (hf : f.Sound) (hslots : f.SlotsLive) (hv : f.Verified d)
    {i : InstId} (hb : f.blocks.get? b = some data) (hk : data.insts[k]? = some i) :
    f.instBreaches (some d) b data k i = [] := by
  obtain ⟨inst, hi, hblock⟩ := hf.linked.listed_inst b data i hb (List.mem_of_getElem? hk)
  simp only [instBreaches, hi, List.append_eq_nil_iff, List.flatMap_eq_nil_iff, hblock, if_true,
    List.map_eq_nil_iff, List.filter_eq_nil_iff, true_and]
  refine ⟨⟨⟨?_, fun t ht => ?_⟩, ?_⟩, fun v hvop => ?_⟩
  · refine if_neg fun hbad => ?_
    obtain ⟨hterm, hlast⟩ := Bool.and_eq_true_iff.1 hbad
    have hend := hf.linked.terminator_last b data i inst hb (List.mem_of_getElem? hk) hi hterm
    rw [List.getLast?_eq_getElem?] at hend
    obtain ⟨hlt, -⟩ := List.getElem?_eq_some_iff.1 hk
    have heq := (List.getElem?_inj hlt (hf.linked.insts_nodup b data hb)).1 (hk.trans hend.symm)
    exact of_decide_eq_true hlast (by omega)
  · simpa using hasBlock_iff.2 (hf.linked.target_live i inst t hi id ht)
  · unfold resultBreaches
    cases hres : inst.result with
    | none => rfl
    | some r =>
      obtain ⟨val, hr, hdef⟩ := hf.linked.inst_result i inst r hi hres
      simp [hr, hdef]
  · obtain ⟨val, hval⟩ := Option.isSome_iff_exists.1 (hslots.operand i inst v hi hvop)
    have huses : val.usesBy (.inst i) = inst.holds v := by
      rw [hf.uses.uses v val _ hval, held_inst, hi]
      rfl
    simp only [operandBreaches, hval, huses, if_true, List.nil_append]
    refine if_neg fun hbad => ?_
    obtain ⟨hr, hna⟩ := Bool.and_eq_true_iff.1 hbad
    rw [hv.operand b data k i inst v hr hb hk hi hvop] at hna
    cases hna

theorem Sound.phiBreaches_eq_nil (hf : f.Sound) (hslots : f.SlotsLive) (hv : f.Verified d)
    {p : PhiId} (hb : f.blocks.get? b = some data) (hp : p ∈ data.phis) :
    f.phiBreaches (some d) b p = [] := by
  obtain ⟨phi, hphi, hblock⟩ := hf.linked.listed_phi b data p hb hp
  obtain ⟨result, hres, hdef⟩ := hf.linked.phi_result p phi hphi
  simp only [phiBreaches, hphi, hblock, if_true, hres, Option.map_some, hdef, List.nil_append,
    List.append_eq_nil_iff, List.flatMap_eq_nil_iff]
  refine ⟨fun s hs => ?_, ?_⟩
  · have hsource : phi.source s.1 = some s.2 := OrderedMap.mem_toList.1 hs
    obtain ⟨val, hval⟩ := Option.isSome_iff_exists.1 (hslots.source p phi s.1 s.2 hphi hsource)
    have huses : val.usesBy (.phi p) = phi.holds s.2 := by
      rw [hf.uses.uses s.2 val _ hval, held_phi, hphi]
      rfl
    simp only [sourceBreaches, hval, huses, if_true, List.nil_append]
    refine if_neg fun hbad => ?_
    obtain ⟨hr, hna⟩ := Bool.and_eq_true_iff.1 hbad
    rw [hv.source b data p phi s.1 s.2 hb hp hphi hsource hr] at hna
    cases hna
  · unfold keyBreaches
    split
    · rename_i hr
      have hkeys : ∀ q, q ∈ phi.sources.keys ↔ q ∈ (f.predecessors b).filter d.isReachable :=
        fun q => OrderedMap.mem_keys.trans
          ((hv.keys b data p phi q hr hb hp hphi).trans List.mem_filter.symm)
      simp only [List.append_eq_nil_iff, List.map_eq_nil_iff, List.filter_eq_nil_iff]
      refine ⟨fun q hq => ?_, fun q hq => ?_⟩
      · simpa using (hkeys q).2 hq
      · have hmem := (hkeys q).1 hq
        simpa [List.contains_iff_mem] using List.mem_filter.1 hmem
    · rfl

/-- On a sound function with live slots there are no findings but these. -/
theorem Sound.violations_eq_nil_iff (hf : f.Sound) (hslots : f.SlotsLive) (hd : d.IsOf f) :
    f.violations (some d) = [] ↔ (∀ b, f.hasBlock b = true → f.Terminated b) ∧ f.Verified d := by
  refine ⟨fun h => ⟨fun b hb => terminated_of_violations hf.linked h hb,
    verified_of_violations hd h⟩, fun ⟨hterm, hv⟩ => ?_⟩
  have hentry : f.hasBlock f.entry = true := hasBlock_iff.2 hf.linked.entry_live
  simp only [violations, Option.isSome_some, if_true, hentry, List.nil_append,
    List.append_eq_nil_iff, List.flatMap_eq_nil_iff]
  refine ⟨fun b hb => ?_, fun v _ => hf.valueViolations_eq_nil v⟩
  obtain ⟨data, i, inst, hdata, hlast, hi, hend⟩ := hterm b (mem_blockIds.1 hb)
  simp only [blockViolations, hdata, List.append_eq_nil_iff, List.flatMap_eq_nil_iff,
    List.map_eq_nil_iff]
  refine ⟨⟨?_, fun p hp => hf.phiBreaches_eq_nil hslots hv hdata hp⟩, fun e he => ?_⟩
  · simp only [endBreaches, hlast, hi, hend, if_true]
  · exact hf.instBreaches_eq_nil hslots hv hdata (List.mem_zipIdx_iff_getElem?.1 he)

/-- No read can find its value undefined. -/
structure ReadsDefined (f : Func) : Prop where
  terminated : ∀ b, f.hasBlock b = true → f.Terminated b
  /-- The block that defines an operand is on every path to the instruction; in the same block the
  defining instruction comes first. -/
  operand : ∀ b data k i inst v, f.toFlowGraph.Reaches f.entry b → f.blocks.get? b = some data →
    data.insts[k]? = some i → f.insts.get? i = some inst → v ∈ inst.operands →
    (∀ c, f.DefinedIn v c → ∀ path, f.toFlowGraph.Path f.entry b path → c ∈ path) ∧
      f.DefinedWithin v b k
  /-- The block that defines a source is on every path to the predecessor that it comes from. -/
  source : ∀ b data p phi pred v, f.blocks.get? b = some data → p ∈ data.phis →
    f.phis.get? p = some phi → phi.source pred = some v → f.toFlowGraph.Reaches f.entry pred →
    ∀ c, f.DefinedIn v c → ∀ path, f.toFlowGraph.Path f.entry pred path → c ∈ path
  /-- The phis of a reachable block have a source for each reachable predecessor and for no other
  block. -/
  keys : ∀ b data p phi q, f.toFlowGraph.Reaches f.entry b → f.blocks.get? b = some data →
    p ∈ data.phis → f.phis.get? p = some phi →
    ((∃ v, phi.source q = some v) ↔ f.toFlowGraph.Reaches f.entry q ∧ b ∈ f.successors q)

theorem Linked.mem_predecessors_iff (hf : f.Linked fun _ => False) (hd : d.IsOf f) {p : BlockId} :
    p ∈ f.predecessors b ∧ d.isReachable p = true ↔
      f.toFlowGraph.Reaches f.entry p ∧ b ∈ f.successors p := by
  rw [hf.reaches_iff, hd.isReachable_iff, predecessors, List.mem_filter, List.contains_iff_mem,
    mem_blockIds]
  refine ⟨fun h => ⟨h.2, h.1.2⟩, fun h => ⟨⟨?_, h.2⟩, h.1⟩⟩
  exact hasBlock_iff.2 (hf.live_of_isReachable hd (hd.isReachable_iff.2 h.1))

theorem Sound.readsDefined_iff (hf : f.Sound) (hslots : f.SlotsLive) (hd : d.IsOf f) :
    f.ReadsDefined ↔ (∀ b, f.hasBlock b = true → f.Terminated b) ∧ f.Verified d := by
  have hreach : ∀ b, d.isReachable b = true ↔ f.toFlowGraph.Reaches f.entry b := fun b =>
    hd.isReachable_iff.trans hf.linked.reaches_iff.symm
  have hpaths : ∀ b, f.Reachable b → ∀ v, (∀ c, f.DefinedIn v c → f.Dominates c b) ↔
      ∀ c, f.DefinedIn v c → ∀ path, f.toFlowGraph.Path f.entry b path → c ∈ path := fun b hb v =>
    forall_congr' fun c => imp_congr_right fun _ => (hf.linked.dominates_iff hb).symm
  constructor
  · intro h
    refine ⟨h.terminated, hd, ?_, ?_, ?_⟩
    · intro b data k i inst v hr hb hk hi hv
      have hbr := hd.isReachable_iff.1 hr
      obtain ⟨hdom, hwithin⟩ := h.operand b data k i inst v ((hreach b).1 hr) hb hk hi hv
      refine (availableAt_iff hf.linked hd (hslots.operand i inst v hi hv) hbr _).2
        ⟨(hpaths b hbr v).2 hdom, ?_⟩
      intro k' hk'
      exact Option.some.inj hk' ▸ hwithin
    · intro b data p phi pred v hb hp hphi hv hr
      have hpr := hd.isReachable_iff.1 hr
      refine (availableAt_iff hf.linked hd (hslots.source p phi pred v hphi hv) hpr _).2
        ⟨(hpaths pred hpr v).2 ?_, nofun⟩
      exact h.source b data p phi pred v hb hp hphi hv ((hreach pred).1 hr)
    · intro b data p phi q hr hb hp hphi
      rw [hf.linked.mem_predecessors_iff hd]
      exact h.keys b data p phi q ((hreach b).1 hr) hb hp hphi
  · rintro ⟨hterm, hv⟩
    refine ⟨hterm, ?_, ?_, ?_⟩
    · intro b data k i inst v hr hb hk hi hop
      have hbr := hf.linked.reaches_iff.1 hr
      obtain ⟨hdom, hwithin⟩ := (availableAt_iff hf.linked hd (hslots.operand i inst v hi hop) hbr
        _).1 (hv.operand b data k i inst v ((hreach b).2 hr) hb hk hi hop)
      exact ⟨(hpaths b hbr v).1 hdom, hwithin k rfl⟩
    · intro b data p phi pred v hb hp hphi hs hr
      have hpr := hf.linked.reaches_iff.1 hr
      refine (hpaths pred hpr v).1 ?_
      exact ((availableAt_iff hf.linked hd (hslots.source p phi pred v hphi hs) hpr _).1
        (hv.source b data p phi pred v hb hp hphi hs ((hreach pred).2 hr))).1
    · intro b data p phi q hr hb hp hphi
      rw [← hf.linked.mem_predecessors_iff hd]
      exact hv.keys b data p phi q ((hreach b).2 hr) hb hp hphi

/-- One sweep for each block that the snapshot's entry reaches settles the dominance. -/
theorem computeDominance_ok_of_length {limit : Nat}
    (h : (f.blockGraph.toFlowGraph.preorder f.entry).length ≤ limit) :
    ∃ d, f.computeDominance limit = .ok d := by
  obtain ⟨tree, htree⟩ := FlowGraph.dominators_ok (blockGraph_consistent f) f.entry h
  refine ⟨⟨f.blockGraph, tree, f.blockGraph.toFlowGraph.frontiers tree⟩, ?_⟩
  unfold computeDominance Dominance.ofGraph
  rw [show f.blockGraph.entry = f.entry from rfl, htree]
  rfl

theorem Linked.computeDominance_ok (hf : f.Linked fun _ => False) {limit : Nat}
    (h : f.blocks.size ≤ limit) : ∃ d, f.computeDominance limit = .ok d := by
  have hlength := FlowGraph.length_preorder_le (blockGraph_consistent f) f.entry
  have hentry := hasBlock_lt (hasBlock_iff.2 hf.entry_live)
  have hsize : f.blockGraph.toFlowGraph.size = f.blocks.size := blockGraph_size f
  exact computeDominance_ok_of_length (by omega)

theorem new_slotsLive (name : String) : (Func.new name).SlotsLive := by
  refine slotsLive_iff.2 fun v u hheld => ?_
  cases u <;> simp [held_inst, held_phi, Func.new, Arena.get?] at hheld

theorem foldl_run_slotsLive (hs : f.Sound) (h : f.SlotsLive) {calls : List Call}
    (hcalls : Call.removeUnreachable ∉ calls) :
    (calls.foldl (fun f c => c.run f) f).SlotsLive := by
  induction calls generalizing f with
  | nil => exact h
  | cons c calls ih =>
    obtain ⟨hc, hcalls⟩ := List.ne_and_not_mem_of_not_mem_cons hcalls
    exact ih (c.run_sound hs) (c.run_slotsLive hs h (Ne.symm hc)) hcalls

end Func

namespace Edit

variable {f : Func} {d : Dominance}

theorem dominance_apply (h : f.Coherent) (hd : f.computeDominance f.dominanceLimit = .ok d) :
    dominance.apply f = (.ok d, { f with dominance := some d }) := by
  unfold dominance
  rw [apply_bind, apply_get]
  simp only
  cases hcached : f.dominance with
  | some e =>
    obtain rfl := Except.ok.inj ((h e hcached).symm.trans hd)
    cases f
    simp_all
  | none =>
    rw [apply_bind, apply_query, hd]
    rfl

theorem verify_ok_iff (hf : f.Sound) (hslots : f.SlotsLive)
    (hd : f.computeDominance f.dominanceLimit = .ok d) :
    (verify.apply f).1 = .ok () ↔ f.ReadsDefined := by
  have hof := Func.computeDominance_isOf hd
  have hsame : Func.violations { f with dominance := some d } (some d) = f.violations (some d) := rfl
  rw [hf.readsDefined_iff hslots hof, ← hf.violations_eq_nil_iff hslots hof, verify_apply,
    dominance_apply hf.coherent hd]
  simp only [Except.toOption, hsame]
  split
  · exact iff_of_true rfl (List.isEmpty_iff.1 ‹_›)
  · rename_i hne
    refine iff_of_false (by simp) fun hnil => hne ?_
    rw [hnil]
    rfl

/-- The verifier accepts exactly the functions without undefined reads, when the limit of sweeps is
at least the number of block slots and no call removed unreachable blocks wholesale. -/
theorem verify_ok_iff_readsDefined (f : Func) (name : String) (calls : List Call)
    (hf : f = calls.foldl (fun f c => c.run f) (Func.new name))
    (hcalls : Call.removeUnreachable ∉ calls) (hlimit : f.blocks.size ≤ f.dominanceLimit) :
    (verify.apply f).1 = .ok () ↔ f.ReadsDefined := by
  have hsound : f.Sound := Func.Built.sound ⟨name, calls, hf⟩
  have hslots : f.SlotsLive := by
    rw [hf]
    exact Func.foldl_run_slotsLive (Func.new_sound name) (Func.new_slotsLive name) hcalls
  obtain ⟨d, hd⟩ := hsound.linked.computeDominance_ok hlimit
  exact verify_ok_iff hsound hslots hd

/-- One arm of a branch makes a sum, and a phi takes it up where the arms meet. -/
def armSum (returned : ValueId) : List Call :=
  [.addArgument, .addBlock, .addBlock, .addBlock, .append ⟨0⟩ (.condBranch ⟨1⟩ ⟨2⟩) [⟨0⟩],
    .appendValue ⟨1⟩ (.binary .add) [⟨0⟩, ⟨0⟩], .append ⟨1⟩ (.branch ⟨3⟩) [],
    .append ⟨2⟩ (.branch ⟨3⟩) [], .addPhi ⟨3⟩, .setPhiSource ⟨0⟩ ⟨1⟩ ⟨1⟩,
    .setPhiSource ⟨0⟩ ⟨2⟩ ⟨0⟩, .append ⟨3⟩ .ret [returned]]

/-- Returning the phi reads what every path defines; returning the sum itself does not. -/
theorem armSum_verify :
    (∃ f : Func, f = (armSum ⟨2⟩).foldl (fun f c => c.run f) (Func.new "f") ∧
      (verify.apply f).1 = .ok () ∧ f.ReadsDefined) ∧
    ∃ f : Func, f = (armSum ⟨1⟩).foldl (fun f c => c.run f) (Func.new "f") ∧
      (verify.apply f).1 ≠ .ok () ∧ ¬ f.ReadsDefined := by
  have hiff : ∀ f : Func, ∀ v, f = (armSum v).foldl (fun f c => c.run f) (Func.new "f") →
      f.blocks.size ≤ f.dominanceLimit → ((verify.apply f).1 = .ok () ↔ f.ReadsDefined) := by
    intro f v hf hlimit
    exact verify_ok_iff_readsDefined f "f" (armSum v) hf (by simp [armSum]) hlimit
  let f : Func := (armSum ⟨2⟩).foldl (fun f c => c.run f) (Func.new "f")
  let g : Func := (armSum ⟨1⟩).foldl (fun f c => c.run f) (Func.new "f")
  have hf : (verify.apply f).1 = .ok () := by decide +kernel
  have hg : (verify.apply g).1 ≠ .ok () := by decide +kernel
  have hlimit : f.blocks.size ≤ f.dominanceLimit ∧ g.blocks.size ≤ g.dominanceLimit := by
    decide +kernel
  refine ⟨⟨f, rfl, hf, (hiff f ⟨2⟩ rfl hlimit.1).1 hf⟩, ⟨g, rfl, hg, fun h => hg ?_⟩⟩
  exact (hiff g ⟨1⟩ rfl hlimit.2).2 h

end Edit

end Midend
