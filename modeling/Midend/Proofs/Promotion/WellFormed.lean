import Mathlib.Data.List.NodupEquivFin
import Midend.Proofs.Func.Accepted
import Midend.Proofs.Promotion.Promote

namespace Midend

open Cell

theorem lt_of_filter {α : Type} {as : List α} (hn : as.Nodup) {p : α → Bool} {a c : α}
    {i j m n : Nat} (ha : as[i]? = some a) (hc : as[j]? = some c) (hij : i < j)
    (ha' : (as.filter p)[m]? = some a) (hc' : (as.filter p)[n]? = some c) : m < n := by
  obtain ⟨place, hplace⟩ :=
    List.sublist_iff_exists_orderEmbedding_getElem?_eq.1 (as.filter_sublist (p := p))
  have hat : ∀ {k l : Nat} {x : α}, as[k]? = some x → (as.filter p)[l]? = some x →
      place l = k := by
    intro k l x hk hl
    obtain ⟨hlt, -⟩ := List.getElem?_eq_some_iff.1 hk
    rw [hplace] at hl
    exact ((List.getElem?_inj hlt hn).1 (hk.trans hl.symm)).symm
  rw [← place.lt_iff_lt, hat ha ha', hat hc hc']
  exact hij

variable {f g h : Func} {d : Dominance} {cell : Cell} {joins : Joins} {b : BlockId} {t : Site}
  {v : ValueId}

theorem Func.edge_iff_mem_predecessors {q : BlockId} (hb : f.hasBlock b = true) :
    f.Edge q b ↔ q ∈ f.predecessors b := by
  rw [Func.Edge, Func.mem_blockGraph_successorsOf, Func.predecessors, List.mem_filter,
    Func.mem_blockIds, List.contains_iff_mem]
  simp [hb]

namespace Stage

theorem hasBlock (hs : Stage f cell joins h) (b : BlockId) : h.hasBlock b = f.hasBlock b := by
  have hb := congrArg Option.isSome (hs.block b)
  rwa [Option.isSome_map, Option.isSome_map] at hb

theorem exists_block (hs : Stage f cell joins h) {data' : Block}
    (hb : h.blocks.get? b = some data') : ∃ data, f.blocks.get? b = some data ∧
      data'.insts = data.insts.filter h.insts.contains := by
  have hlist := hs.block b
  rw [hb, Option.map_some] at hlist
  obtain ⟨data, hdata, hinsts⟩ := Option.map_eq_some_iff.1 hlist.symm
  exact ⟨data, hdata, hinsts.symm⟩

theorem terminator_iff (hp : Promoting f d cell joins) (hs : Stage f cell joins h) (op : Opcode) :
    (∃ data i inst, f.blocks.get? b = some data ∧ i ∈ data.insts ∧ f.insts.get? i = some inst ∧
      inst.isTerminator = true ∧ inst.opcode = op) ↔
    ∃ data i inst, h.blocks.get? b = some data ∧ i ∈ data.insts ∧ h.insts.get? i = some inst ∧
      inst.isTerminator = true ∧ inst.opcode = op := by
  constructor
  · rintro ⟨data, i, inst, hb, hmem, hi, hterm, rfl⟩
    obtain ⟨data', hb'⟩ := Func.hasBlock_iff.1
      ((hs.hasBlock b).trans (Func.hasBlock_iff.2 ⟨data, hb⟩))
    obtain ⟨data₀, hb₀, hinsts⟩ := hs.exists_block hb'
    obtain rfl := Option.some.inj (hb.symm.trans hb₀)
    cases hi' : h.insts.get? i with
    | none =>
      have := hp.not_terminator hi (hs.gone i inst hi hi')
      rw [hterm] at this
      cases this
    | some inst' =>
      obtain ⟨inst₀, hi₀, hshape, -⟩ := hs.inst i inst' hi'
      obtain rfl := Option.some.inj (hi.symm.trans hi₀)
      obtain ⟨hop, -⟩ := Inst.mk.inj hshape
      refine ⟨data', i, inst', hb', ?_, hi', ?_, hop⟩
      · rw [hinsts]
        exact List.mem_filter.2 ⟨hmem, Option.isSome_iff_exists.2 ⟨inst', hi'⟩⟩
      · rw [Inst.isTerminator, hop]
        exact hterm
  · rintro ⟨data', i, inst', hb', hmem, hi', hterm, rfl⟩
    obtain ⟨data, hb, hinsts⟩ := hs.exists_block hb'
    obtain ⟨inst, hi, hshape, -⟩ := hs.inst i inst' hi'
    obtain ⟨hop, -⟩ := Inst.mk.inj hshape
    rw [hinsts] at hmem
    refine ⟨data, i, inst, hb, (List.mem_filter.1 hmem).1, hi, ?_, hop.symm⟩
    rwa [Inst.isTerminator, ← hop]

theorem successors (hp : Promoting f d cell joins) (hs : Stage f cell joins h) (b : BlockId) :
    h.successors b = f.successors b :=
  hp.sound.linked.successors_congr hs.sound.linked (hs.terminator_iff hp)

theorem blockGraph (hp : Promoting f d cell joins) (hs : Stage f cell joins h) :
    h.blockGraph = f.blockGraph :=
  Func.blockGraph_congr hs.entry hs.size hs.hasBlock fun b _ => hs.successors hp b

theorem isOf (hp : Promoting f d cell joins) (hs : Stage f cell joins h) : d.IsOf h := by
  have hd := hp.verified.dominance
  refine ⟨?_, hd.entry.trans hs.entry.symm, ?_, ?_⟩
  · rw [hs.blockGraph hp, hd.graph]
  · rw [hs.blockGraph hp]
    exact hd.tree
  · rw [hs.blockGraph hp, hd.frontiers]

theorem mem_predecessors_iff (hp : Promoting f d cell joins) (hs : Stage f cell joins h)
    {q : BlockId} : q ∈ h.predecessors b ↔ q ∈ f.predecessors b := by
  rw [Func.predecessors, Func.predecessors, List.mem_filter, List.mem_filter, Func.mem_blockIds,
    Func.mem_blockIds, hs.hasBlock, hs.successors hp]

theorem reachable_iff (hp : Promoting f d cell joins) (hs : Stage f cell joins h) :
    h.Reachable b ↔ f.Reachable b := by
  rw [Func.Reachable, hs.blockGraph hp, hs.entry]

theorem terminated (hp : Promoting f d cell joins) (hs : Stage f cell joins h)
    (hb : f.Terminated b) : h.Terminated b := by
  obtain ⟨data, i, inst, hdata, hlast, hi, hterm⟩ := hb
  obtain ⟨data', i', inst', hdata', hmem', hi', hterm', -⟩ := (hs.terminator_iff hp inst.opcode).1
    ⟨data, i, inst, hdata, List.mem_of_getLast? hlast, hi, hterm, rfl⟩
  exact ⟨data', i', inst', hdata', hs.sound.linked.terminator_last b data' i' inst' hdata' hmem' hi'
    hterm', hi', hterm'⟩

theorem value_gone (hp : Promoting f d cell joins) (hs : Stage f cell joins h) {i : InstId}
    {inst : Inst} (hi : f.insts.get? i = some inst) (hr : inst.result = some v)
    (hgone : h.insts.get? i = none) : h.values.get? v = none := by
  obtain ⟨old, hold, hdef⟩ := hp.sound.linked.inst_result i inst v hi hr
  refine Option.eq_none_iff_forall_ne_some.2 fun val hval => ?_
  rcases hs.value v val hval with ⟨old', hold', hdef'⟩ | ⟨hnone, -⟩
  · obtain rfl := Option.some.inj (hold.symm.trans hold')
    obtain ⟨inst', hi', -⟩ := hs.sound.linked.inst_origin v val i hval (hdef'.symm.trans hdef)
    rw [hgone] at hi'
    cases hi'
  · rw [hold] at hnone
    cases hnone

theorem written_of_phi (hp : Promoting f d cell joins) (hs : Stage f cell joins h) {p : PhiId}
    {phi : Phi} (hphi : h.phis.get? p = some phi) : Written f joins phi.result ⟨phi.block, 0⟩ := by
  rcases hs.phi p phi hphi with ⟨old, hold, hshape, -⟩ | ⟨-, hjoin, -⟩
  · obtain ⟨hblock, hres, -⟩ := Phi.mk.inj hshape
    obtain ⟨data, hdata, hmem⟩ := hp.sound.linked.phi_listed p old hold id
    rw [hblock]
    exact .phi (e := (p, old)) (Func.mem_phisOf.2 ⟨data, hdata, hmem, hold⟩) hres.symm
  · exact .join hjoin

theorem written_of_definedIn (hp : Promoting f d cell joins) (hs : Stage f cell joins h)
    {c : BlockId} (hv : h.DefinedIn v c) : ∃ k, Written f joins v ⟨c, k⟩ := by
  cases hv with
  | @inst val i inst hval hdef hi =>
    obtain ⟨inst', hi', hres⟩ := hs.sound.linked.inst_origin v val i hval hdef
    obtain rfl := Option.some.inj (hi.symm.trans hi')
    obtain ⟨inst₀, hi₀, hshape, -⟩ := hs.inst i inst hi
    obtain ⟨-, -, hres₀, hblock⟩ := Inst.mk.inj hshape
    obtain ⟨k, hk⟩ := hp.sound.linked.exists_getElem?_instsOf hi₀
    rw [hblock]
    exact ⟨k + 1, .inst hk (hres₀.symm.trans hres)⟩
  | @phi val p phi hval hdef hphi =>
    obtain ⟨phi', hphi', hres⟩ := hs.sound.linked.phi_origin v val p hval hdef
    obtain rfl := Option.some.inj (hphi.symm.trans hphi')
    exact ⟨0, hres ▸ hs.written_of_phi hp hphi⟩

theorem dominates_of_available (hp : Promoting f d cell joins) (hs : Stage f cell joins h)
    (ht : f.Reachable t.block) (hav : Available f joins v t) {c : BlockId}
    (hv : h.DefinedIn v c) : h.Dominates c t.block := by
  rw [Func.Dominates, hs.blockGraph hp, hs.entry]
  obtain ⟨k, hk⟩ := hs.written_of_definedIn hp hv
  rcases hav _ hk with ⟨hb, -⟩ | hlt
  · have hb' : c = t.block := hb
    rw [hb']
    exact .refl ht
  · exact hlt.2

theorem definedWithin_of_available (hp : Promoting f d cell joins) (hs : Stage f cell joins h)
    {k n : Nat} {e : InstId × Inst} {data : Block} (hk : (f.instsOf b)[k]? = some e)
    (hdata : h.blocks.get? b = some data) (hn : data.insts[n]? = some e.1)
    (hav : Available f joins v ⟨b, k⟩) : h.DefinedWithin v b n := by
  intro val data' i m hval hdef hdata' hm
  obtain rfl := Option.some.inj (hdata.symm.trans hdata')
  obtain ⟨data₀, hdata₀, hinsts⟩ := hs.exists_block hdata
  obtain ⟨inst, hi, hres⟩ := hs.sound.linked.inst_origin v val i hval hdef
  obtain ⟨inst₀, hi₀, hshape, -⟩ := hs.inst i inst hi
  obtain ⟨-, -, hres₀, hblock⟩ := Inst.mk.inj hshape
  obtain ⟨j, hj⟩ := hp.sound.linked.exists_getElem?_instsOf hi₀
  -- The definition stood before the reader in `f`, and leaving others out keeps their order.
  have hb : inst₀.block = b := by
    obtain ⟨inst', hi', hb'⟩ := hs.sound.linked.listed_inst b data i hdata (List.mem_of_getElem? hm)
    rw [← hblock, Option.some.inj (hi.symm.trans hi'), hb']
  rw [hb] at hj
  have hlt : j + 1 ≤ k := (hav _ (.inst hj (hres₀.symm.trans hres))).le_done rfl
  obtain ⟨data₁, hdata₁, hj', -⟩ := hp.sound.linked.getElem?_instsOf.1 hj
  obtain ⟨data₂, hdata₂, hk', -⟩ := hp.sound.linked.getElem?_instsOf.1 hk
  obtain rfl := Option.some.inj (hdata₀.symm.trans hdata₁)
  obtain rfl := Option.some.inj (hdata₀.symm.trans hdata₂)
  rw [hinsts] at hm hn
  exact lt_of_filter (hp.sound.linked.insts_nodup b data₀ hdata₀) hj' hk' hlt hm hn

end Stage

theorem Cell.Reads.available {op : Opcode} {w : ValueId} (h : Reads f cell joins op t v w) :
    Available f joins w t := by
  rcases h with hsame | ⟨-, -, hcopies⟩
  · exact hsame.right
  · exact hcopies.available

theorem exists_of_rel {α β : Type} {R : α → β → Prop} {a : Option α} {b : Option β}
    (h : Option.Rel R a b) {y : β} (hy : b = some y) : ∃ x, a = some x ∧ R x y := by
  cases h with
  | some hr => exact ⟨_, rfl, Option.some.inj hy ▸ hr⟩
  | none => cases hy

theorem isSome_of_rel {α β : Type} {R : α → β → Prop} {a : Option α} {b : Option β}
    (h : Option.Rel R a b) : (∃ y, b = some y) ↔ ∃ x, a = some x := by
  cases h <;> simp

theorem Cell.PhiFits.available {p : PhiId} {phi : Phi} {q : BlockId}
    (h : PhiFits f cell joins p phi) (hq : f.Reachable q) (hv : phi.source q = some v) :
    Available f joins v (.exit f q) := by
  rcases h with ⟨old, -, -, hsame⟩ | ⟨-, -, hcopies⟩
  · obtain ⟨w, -, hvw⟩ := exists_of_rel (hsame q) hv
    exact (hvw hq).right
  · exact (hcopies q v hv).2.2.available

theorem Dissolved.source_iff (hp : Promoting f d cell joins) (hd : Dissolved f cell joins h)
    {p : PhiId} {phi : Phi} {q : BlockId} (hphi : h.phis.get? p = some phi)
    (hr : f.phis.get? p = none ∨ f.Reachable phi.block) :
    (∃ v, phi.source q = some v) ↔ q ∈ f.predecessors phi.block ∧ f.Reachable q := by
  have hd' := hp.verified.dominance
  rcases hd.stage.phi p phi hphi with ⟨old, hold, hshape, hsame⟩ | ⟨hnew, hjoin, hcopies⟩
  · obtain ⟨hblock, -⟩ := Phi.mk.inj hshape
    have hreach : f.Reachable phi.block := hr.resolve_left (by simp [hold])
    obtain ⟨data, hdata, hmem⟩ := hp.sound.linked.phi_listed p old hold id
    rw [hblock] at hreach ⊢
    have hkeys := hp.verified.keys _ data p old q (hd'.isReachable_iff.2 hreach) hdata hmem hold
    rw [hd'.isReachable_iff] at hkeys
    exact (isSome_of_rel (hsame q)).trans hkeys
  · have hbelow := hp.join_below _ _ hjoin
    have hlive : f.hasBlock phi.block = true := Func.hasBlock_iff.2
      (hp.sound.linked.live_of_isReachable hd' (hd'.isReachable_iff.2 hbelow.2.reaches))
    rw [← Func.edge_iff_mem_predecessors hlive]
    constructor
    · rintro ⟨v, hv⟩
      exact ⟨(hcopies q v hv).2.1, (hcopies q v hv).1⟩
    · rintro ⟨hq, hreach⟩
      exact Option.isSome_iff_exists.1 (hd.complete p phi q hphi hnew hreach hq)

theorem Dissolved.verified (hp : Promoting f d cell joins) (hd : Dissolved f cell joins h) :
    h.Verified d where
  dominance := hd.stage.isOf hp
  operand b data n i inst' v hr hb hn hi' hv := by
    have hs := hd.stage
    have hreach := hp.verified.dominance.isReachable_iff.1 hr
    obtain ⟨inst, hi, hshape, hreads⟩ := hs.inst i inst' hi'
    obtain ⟨-, -, -, hblock⟩ := Inst.mk.inj hshape
    obtain ⟨k, hk⟩ := hp.sound.linked.exists_getElem?_instsOf hi
    have hb' : inst.block = b := by
      obtain ⟨inst₁, hi₁, hb₁⟩ := hs.sound.linked.listed_inst b data i hb (List.mem_of_getElem? hn)
      rw [← hblock, Option.some.inj (hi'.symm.trans hi₁), hb₁]
    rw [hb'] at hk hreads
    obtain ⟨w, -, hread⟩ := exists_of_forall₂ (hreads k hk hreach).flip hv
    have hav : Available f joins v ⟨b, k⟩ := Reads.available hread
    -- Availability at a site of `f` says both where the definition is and that it comes first.
    rw [Func.availableAt_iff hs.sound.linked (hs.isOf hp) (hs.slots.operand i inst' v hi' hv)
      ((hs.reachable_iff hp).2 hreach)]
    refine ⟨fun c hc => hs.dominates_of_available (t := ⟨b, k⟩) hp hreach hav hc, ?_⟩
    rintro _ ⟨⟩
    exact hs.definedWithin_of_available hp hk hb hn hav
  source b data p phi q v _ _ hphi hv hr := by
    have hs := hd.stage
    have hreach := hp.verified.dominance.isReachable_iff.1 hr
    have hav := (hs.phi p phi hphi).available hreach hv
    rw [Func.availableAt_iff hs.sound.linked (hs.isOf hp) (hs.slots.source p phi q v hphi hv)
      ((hs.reachable_iff hp).2 hreach)]
    refine ⟨fun c hc => hs.dominates_of_available (t := .exit f q) hp hreach hav hc, ?_⟩
    rintro _ ⟨⟩
  keys b data p phi q hr hb hmem hphi := by
    have hd' := hp.verified.dominance
    obtain ⟨phi', hphi', hblock⟩ := hd.stage.sound.linked.listed_phi b data p hb hmem
    obtain rfl := Option.some.inj (hphi.symm.trans hphi')
    subst hblock
    rw [hd.stage.mem_predecessors_iff hp, hd'.isReachable_iff]
    exact hd.source_iff hp hphi (.inr (hd'.isReachable_iff.1 hr))

/-- `g` is `f` without the cell that instruction `i` created. -/
structure Func.WithoutCell (f : Func) (i : InstId) (cell : ValueId) (g : Func) : Prop where
  verifies : (Edit.verify.apply g).1 = .ok ()
  /-- The creation and the cell are gone, and so is every load and store of it. -/
  creation : g.insts.get? i = none
  value : g.values.get? cell = none
  access : ∀ j inst, f.insts.get? j = some inst →
    inst.opcode = .getRef ∨ inst.opcode = .setRef → cell ∈ inst.operands → g.insts.get? j = none
  operand : ∀ j inst, g.insts.get? j = some inst → cell ∉ inst.operands
  source : ∀ p phi, g.phis.get? p = some phi → cell ∉ phi.sources.values
  entry : g.entry = f.entry
  blocks : ∀ b, g.hasBlock b = f.hasBlock b
  targets : ∀ b, g.successors b = f.successors b
  /-- A phi that was added has one source for each reachable predecessor of its block. -/
  added : ∀ p phi, g.phis.get? p = some phi → f.phis.get? p = none → phi.sources.keys.Nodup ∧
    ∀ q, q ∈ phi.sources.keys ↔ q ∈ g.predecessors phi.block ∧ g.toFlowGraph.Reaches g.entry q

namespace Promoted

theorem verify (ha : f.Accepted d) (hg : Promoted f d cell g) :
    (Edit.verify.apply g).1 = .ok () := by
  obtain ⟨joins, hp, hd, -⟩ := hg
  have hs := hd.stage
  have hcompute : g.computeDominance g.dominanceLimit = .ok d :=
    hs.sound.coherent d (hs.dominance.trans ha.cached)
  rw [Edit.verify_ok_iff hs.sound hs.slots hcompute,
    hs.sound.readsDefined_iff hs.slots (hs.isOf hp)]
  refine ⟨fun b hb => hs.terminated hp ?_, hd.verified hp⟩
  exact Func.terminated_of_violations ha.sound.linked ha.clean ((hs.hasBlock b).symm.trans hb)

theorem withoutCell (ha : f.Accepted d) (hg : Promoted f d cell g) :
    f.WithoutCell cell.creation cell.value g := by
  have hverifies := hg.verify ha
  obtain ⟨joins, hp, hd, hgone⟩ := hg
  have hs := hd.stage
  have hvalue : g.values.get? cell.value = none := by
    obtain ⟨inst, hi, -, hres, -⟩ := hp.isIn.creation
    exact hs.value_gone hp hi hres hgone
  refine ⟨hverifies, hgone, hvalue, fun j inst hj hop hc => ?_, fun j inst hj => ?_,
    fun p phi hphi => ?_, hs.entry, hs.hasBlock, hs.successors hp, fun p phi hphi hnew => ?_⟩
  · exact hs.gone_of_freed hp hj hc hop (hd.unheld _)
  · have hzero := hd.unheld (.inst j)
    rw [Func.held_inst, hj] at hzero
    exact List.count_eq_zero.1 hzero
  · have hzero := hd.unheld (.phi p)
    rw [Func.held_phi, hphi] at hzero
    exact List.count_eq_zero.1 hzero
  · refine ⟨OrderedMap.keys_nodup _, fun q => ?_⟩
    rw [OrderedMap.mem_keys, hs.mem_predecessors_iff hp, hs.sound.linked.reaches_iff,
      hs.reachable_iff hp]
    exact hd.source_iff hp hphi (.inl hnew)

end Promoted

/-- Promotion of a live instruction of a verified function comes to a decision. If it promotes,
what is left is well formed and without the cell; if not, only the cached dominance may change. -/
theorem Edit.promoteCell_wellFormed (f : Func) (hf : f.Built) (hv : (verify.apply f).1 = .ok ())
    (captured : Bool) (i : InstId) (hi : f.insts.contains i = true) :
    ∃ outcome g, (promoteCell captured i).apply f = (.ok outcome, g) ∧
      match outcome with
      | .promoted _ => ∃ inst cell, f.insts.get? i = some inst ∧ inst.opcode = .newRef ∧
          inst.result = some cell ∧ f.WithoutCell i cell g
      | .skipped _ => g = { f with dominance := g.dominance } := by
  obtain ⟨d, ha, outcome, g, hrun, hg⟩ := promoteCell_ensures hf hv captured hi
  refine ⟨outcome, g, hrun, ?_⟩
  cases outcome with
  | skipped why =>
    subst hg
    rfl
  | promoted how =>
    obtain ⟨cell, rfl, hg⟩ := hg
    have hw := hg.withoutCell ha
    obtain ⟨joins, hp, -⟩ := hg
    obtain ⟨inst, hinst, hop, hres, -⟩ := hp.isIn.creation
    exact ⟨inst, cell.value, hinst, hop, hres, hw.verifies, hw.creation, hw.value, hw.access,
      hw.operand, hw.source, hw.entry, hw.blocks, hw.targets, hw.added⟩

/-- One arm of a branch stores a sum, and the block where the arms meet loads. -/
def storingArm : List Call :=
  [.addArgument, .addBlock, .addBlock, .addBlock, .appendValue ⟨0⟩ .newRef [⟨0⟩],
    .append ⟨0⟩ (.condBranch ⟨1⟩ ⟨2⟩) [⟨0⟩], .appendValue ⟨1⟩ (.binary .add) [⟨0⟩, ⟨0⟩],
    .append ⟨1⟩ .setRef [⟨1⟩, ⟨2⟩], .append ⟨1⟩ (.branch ⟨3⟩) [], .append ⟨2⟩ (.branch ⟨3⟩) [],
    .appendValue ⟨3⟩ .getRef [⟨1⟩], .append ⟨3⟩ .ret [⟨3⟩]]

/-- The load becomes a phi. -/
theorem Edit.storingArm_promoteCell :
    ∃ f g : Func, f = storingArm.foldl (fun f c => c.run f) (Func.new "f") ∧
      (promoteCell true ⟨0⟩).apply f = (.ok (.promoted (.acrossBlocks 1)), g) ∧
      f.WithoutCell ⟨0⟩ ⟨1⟩ g := by
  let f : Func := storingArm.foldl (fun f c => c.run f) (Func.new "f")
  have hv : (verify.apply f).1 = .ok () := by decide +kernel
  have hi : f.insts.contains ⟨0⟩ = true := by decide +kernel
  obtain ⟨outcome, g, hrun, hg⟩ :=
    promoteCell_wellFormed f ⟨"f", storingArm, rfl⟩ hv true ⟨0⟩ hi
  have hout : ((promoteCell true ⟨0⟩).apply f).1 = .ok (.promoted (.acrossBlocks 1)) := by
    decide +kernel
  rw [hrun] at hout
  obtain rfl := Except.ok.inj hout
  obtain ⟨inst, cell, hinst, -, hres, hw⟩ := hg
  have hcell : (f.insts.get? ⟨0⟩).bind Inst.result = some ⟨1⟩ := by decide +kernel
  rw [hinst, Option.bind_some, hres] at hcell
  obtain rfl := Option.some.inj hcell
  exact ⟨f, g, rfl, hrun, hw⟩

end Midend
