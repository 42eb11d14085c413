import Midend.Proofs.Edit.Sound
import Midend.Proofs.Func.Sites
import Midend.Proofs.Graph.Restriction

/-!
Outlines: the blocks of a function with the instructions that they list, and what each instruction
does and where it belongs. Values, operands and phis are left out, so an outline is orderly also
where values were destroyed that are still in use. The block graph is read from the outline, and
dominance from the part of it that the entry reaches.
-/

namespace Midend

namespace Func

variable {f g h : Func} {b c : BlockId} {i : InstId} {gone : BlockId → Prop}

def instIds (f : Func) (b : BlockId) : Option (List InstId) := (f.blocks.get? b).map (·.insts)

/-- The operation of a live instruction and the block that it names as its own. -/
def code (f : Func) (i : InstId) : Option (Opcode × BlockId) :=
  (f.insts.get? i).map fun inst => (inst.opcode, inst.block)

theorem hasBlock_eq (f : Func) (b : BlockId) : f.hasBlock b = (f.instIds b).isSome := by
  rw [hasBlock, Arena.contains, instIds, Option.isSome_map]

theorem instIds_eraseBlock (f : Func) (b c : BlockId) :
    instIds { f with blocks := f.blocks.erase b } c = if c = b then none else f.instIds c := by
  simp only [instIds, Arena.get?_erase]
  split <;> rfl

/-- Blocks list instructions of their own, terminators stand last, and targets are block slots. -/
structure Orderly (f : Func) : Prop where
  listed : ∀ b is i, f.instIds b = some is → i ∈ is → ∃ op, f.code i = some (op, b)
  last : ∀ b is i op c, f.instIds b = some is → i ∈ is → f.code i = some (op, c) →
    op.isTerminator = true → is.getLast? = some i
  target_lt : ∀ i op b t, f.code i = some (op, b) → t ∈ op.targets → t.index < f.blocks.size

theorem terminatorOpcode?_eq (f : Func) (b : BlockId) :
    f.terminatorOpcode? b = (f.instIds b).bind fun is => is.getLast?.bind fun i =>
      (f.code i).bind fun c => if c.1.isTerminator then some c.1 else none := by
  rw [instIds, Option.bind_map]
  refine congrArg (Option.bind _) (funext fun data => congrArg (Option.bind _) (funext fun i => ?_))
  rw [code, Option.bind_map]
  rfl

theorem Orderly.terminatorOpcode?_eq_some (hf : f.Orderly) {op : Opcode} :
    f.terminatorOpcode? b = some op ↔ op.isTerminator = true ∧
      ∃ is i c, f.instIds b = some is ∧ i ∈ is ∧ f.code i = some (op, c) := by
  rw [terminatorOpcode?_eq]
  constructor
  · intro hop
    simp only [Option.bind_eq_some_iff] at hop
    obtain ⟨is, his, i, hlast, ⟨op', c⟩, hi, hite⟩ := hop
    split at hite
    · obtain rfl := Option.some.inj hite
      exact ⟨‹_›, is, i, c, his, List.mem_of_getLast? hlast, hi⟩
    · cases hite
  · rintro ⟨hterm, is, i, c, his, hmem, hi⟩
    simp [his, hf.last b is i op c his hmem hi hterm, hi, hterm]

/-- Orderly functions whose blocks list the same terminators have the same edges. -/
theorem Orderly.successors_congr (hf : f.Orderly) (hg : g.Orderly)
    (hsame : ∀ op : Opcode, op.isTerminator = true →
      ((∃ is i c, f.instIds b = some is ∧ i ∈ is ∧ f.code i = some (op, c)) ↔
        ∃ is i c, g.instIds b = some is ∧ i ∈ is ∧ g.code i = some (op, c))) :
    g.successors b = f.successors b := by
  have hop : g.terminatorOpcode? b = f.terminatorOpcode? b := by
    refine Option.ext fun op => ?_
    rw [hg.terminatorOpcode?_eq_some, hf.terminatorOpcode?_eq_some]
    exact and_congr_right fun hterm => (hsame op hterm).symm
  rw [successors, hop, successors]

theorem Orderly.successors_congr_of_ne (hf : f.Orderly) (hg : g.Orderly) {i : InstId}
    (hcode : ∀ j, j ≠ i → g.code j = f.code j)
    (hlist : ∀ j, j ≠ i →
      ((∃ is, g.instIds b = some is ∧ j ∈ is) ↔ ∃ is, f.instIds b = some is ∧ j ∈ is))
    (hi : ∀ op c, f.code i = some (op, c) ∨ g.code i = some (op, c) → op.isTerminator = false) :
    g.successors b = f.successors b := by
  refine hf.successors_congr hg fun op hop => ?_
  have hne : ∀ {j c}, f.code j = some (op, c) ∨ g.code j = some (op, c) → j ≠ i := by
    rintro j c hj rfl
    exact Bool.false_ne_true ((hi op c hj).symm.trans hop)
  constructor
  · rintro ⟨is, j, c, his, hj, hc⟩
    obtain ⟨is', his', hj'⟩ := (hlist j (hne (.inl hc))).2 ⟨is, his, hj⟩
    exact ⟨is', j, c, his', hj', (hcode j (hne (.inl hc))).trans hc⟩
  · rintro ⟨is, j, c, his, hj, hc⟩
    obtain ⟨is', his', hj'⟩ := (hlist j (hne (.inr hc))).1 ⟨is, his, hj⟩
    exact ⟨is', j, c, his', hj', (hcode j (hne (.inr hc))).symm.trans hc⟩

theorem successors_eq_of_code (hlist : g.instIds b = f.instIds b)
    (hcode : ∀ is, f.instIds b = some is → ∀ i ∈ is, g.code i = f.code i) :
    g.successors b = f.successors b := by
  have hop : g.terminatorOpcode? b = f.terminatorOpcode? b := by
    rw [terminatorOpcode?_eq, terminatorOpcode?_eq, hlist]
    cases his : f.instIds b with
    | none => rfl
    | some is =>
      cases hlast : is.getLast? with
      | none => simp [hlast]
      | some i => simp [hlast, hcode is his i (List.mem_of_getLast? hlast)]
  rw [successors, hop, successors]

/-- Two functions with one outline and one cached dominance. -/
structure SameOutline (f g : Func) : Prop where
  entry : g.entry = f.entry
  limit : g.dominanceLimit = f.dominanceLimit
  dominance : g.dominance = f.dominance
  size : g.blocks.size = f.blocks.size
  instIds : ∀ b, g.instIds b = f.instIds b
  code : ∀ i, g.code i = f.code i

namespace SameOutline

theorem refl (f : Func) : f.SameOutline f := ⟨rfl, rfl, rfl, rfl, fun _ => rfl, fun _ => rfl⟩

theorem trans (hfg : f.SameOutline g) (hgh : g.SameOutline h) : f.SameOutline h where
  entry := hgh.entry.trans hfg.entry
  limit := hgh.limit.trans hfg.limit
  dominance := hgh.dominance.trans hfg.dominance
  size := hgh.size.trans hfg.size
  instIds b := (hgh.instIds b).trans (hfg.instIds b)
  code i := (hgh.code i).trans (hfg.code i)

theorem of_fields (hentry : g.entry = f.entry) (hlimit : g.dominanceLimit = f.dominanceLimit)
    (hdom : g.dominance = f.dominance) (hblocks : g.blocks = f.blocks) (hinsts : g.insts = f.insts) :
    f.SameOutline g where
  entry := hentry
  limit := hlimit
  dominance := hdom
  size := by rw [hblocks]
  instIds b := by rw [Func.instIds, hblocks, Func.instIds]
  code i := by rw [Func.code, hinsts, Func.code]

theorem of_modifyInst {u : Inst → Inst} (hentry : g.entry = f.entry)
    (hlimit : g.dominanceLimit = f.dominanceLimit) (hdom : g.dominance = f.dominance)
    (hblocks : g.blocks = f.blocks) (hinsts : g.insts = f.insts.modify i u)
    (hu : ∀ inst, (u inst).opcode = inst.opcode ∧ (u inst).block = inst.block) :
    f.SameOutline g where
  entry := hentry
  limit := hlimit
  dominance := hdom
  size := by rw [hblocks]
  instIds b := by rw [Func.instIds, hblocks, Func.instIds]
  code j := by
    simp only [Func.code, hinsts, Arena.get?_modify]
    split
    · rw [Option.map_map]
      exact congrArg (Option.map · _) (funext fun inst => by simp [(hu inst).1, (hu inst).2])
    · rfl

theorem of_modifyBlock {u : Block → Block} (hentry : g.entry = f.entry)
    (hlimit : g.dominanceLimit = f.dominanceLimit) (hdom : g.dominance = f.dominance)
    (hblocks : g.blocks = f.blocks.modify b u) (hinsts : g.insts = f.insts)
    (hu : ∀ data, (u data).insts = data.insts) : f.SameOutline g where
  entry := hentry
  limit := hlimit
  dominance := hdom
  size := by rw [hblocks, Arena.size_modify]
  instIds c := by
    simp only [Func.instIds, hblocks, Arena.get?_modify]
    split
    · rw [Option.map_map]
      exact congrArg (Option.map · _) (funext fun data => hu data)
    · rfl
  code i := by rw [Func.code, hinsts, Func.code]

end SameOutline

/-- `g` is `f` without some of the blocks that are to go and the instructions that stood in them; the
cached dominance may have been dropped. -/
structure Prunes (gone : BlockId → Prop) (f g : Func) : Prop where
  entry : g.entry = f.entry
  limit : g.dominanceLimit = f.dominanceLimit
  dominance : g.dominance = f.dominance ∨ g.dominance = none
  size : g.blocks.size = f.blocks.size
  instIds : ∀ b, g.instIds b = f.instIds b ∨ (gone b ∧ g.instIds b = none)
  code : ∀ i, g.code i = f.code i ∨
    (g.code i = none ∧ ∀ op b, f.code i = some (op, b) → gone b ∧ g.instIds b = none)

namespace Prunes

theorem refl (f : Func) : f.Prunes gone f :=
  ⟨rfl, rfl, .inl rfl, rfl, fun _ => .inl rfl, fun _ => .inl rfl⟩

theorem same (hp : f.Prunes gone g) (hs : g.SameOutline h) : f.Prunes gone h where
  entry := hs.entry.trans hp.entry
  limit := hs.limit.trans hp.limit
  dominance := hs.dominance.symm ▸ hp.dominance
  size := hs.size.trans hp.size
  instIds b := hs.instIds b ▸ hp.instIds b
  code i := by
    rw [hs.code i]
    refine (hp.code i).imp_right fun ⟨hnone, hblock⟩ => ⟨hnone, fun op b hi => ?_⟩
    rw [hs.instIds b]
    exact hblock op b hi

theorem invalidate (hp : f.Prunes gone g) : f.Prunes gone g.invalidateDominance :=
  ⟨hp.entry, hp.limit, .inr rfl, hp.size, hp.instIds, hp.code⟩

theorem eraseBlock (hp : f.Prunes gone g) (hb : gone b) :
    f.Prunes gone { g with blocks := g.blocks.erase b } where
  entry := hp.entry
  limit := hp.limit
  dominance := hp.dominance
  size := (Arena.size_erase ..).trans hp.size
  instIds c := by
    rw [instIds_eraseBlock]
    split
    · rename_i heq
      exact .inr ⟨heq ▸ hb, rfl⟩
    · exact hp.instIds c
  code i := by
    refine (hp.code i).imp_right fun ⟨hnone, hblock⟩ => ⟨hnone, fun op c hc => ?_⟩
    rw [instIds_eraseBlock, (hblock op c hc).2, ite_self]
    exact ⟨(hblock op c hc).1, rfl⟩

theorem instIds_of (hp : f.Prunes gone g) {is : List InstId} (his : g.instIds b = some is) :
    f.instIds b = some is := by
  rcases hp.instIds b with heq | ⟨-, hnone⟩
  · rwa [← heq]
  · rw [hnone] at his
    cases his

theorem code_of (hp : f.Prunes gone g) {e : Opcode × BlockId} (hi : g.code i = some e) :
    f.code i = some e := by
  rcases hp.code i with heq | ⟨hnone, -⟩
  · rwa [← heq]
  · rw [hnone] at hi
    cases hi

theorem orderly (hp : f.Prunes gone g) (hf : f.Orderly) : g.Orderly := by
  refine ⟨fun b is i his hi => ?_, fun b is i op c his hi hc => ?_, fun i op b t hc ht => ?_⟩
  · obtain ⟨op, hop⟩ := hf.listed b is i (hp.instIds_of his) hi
    rcases hp.code i with heq | ⟨-, hblock⟩
    · exact ⟨op, heq.trans hop⟩
    · rw [(hblock op b hop).2] at his
      cases his
  · exact hf.last b is i op c (hp.instIds_of his) hi (hp.code_of hc)
  · rw [hp.size]
    exact hf.target_lt i op b t (hp.code_of hc) ht

theorem successors_subset (hp : f.Prunes gone g) (hf : f.Orderly) :
    g.successors b ⊆ f.successors b := by
  intro s hs
  rw [successors] at hs ⊢
  cases hop : g.terminatorOpcode? b with
  | none =>
    rw [hop] at hs
    cases hs
  | some op =>
    obtain ⟨hterm, is, i, c, his, hi, hc⟩ := (hp.orderly hf).terminatorOpcode?_eq_some.1 hop
    have hop' := hf.terminatorOpcode?_eq_some.2
      ⟨hterm, is, i, c, hp.instIds_of his, hi, hp.code_of hc⟩
    rw [hop']
    rwa [hop] at hs

theorem successors_eq (hp : f.Prunes gone g) (hf : f.Orderly) (hb : ¬ gone b) :
    g.hasBlock b = f.hasBlock b ∧ g.successors b = f.successors b := by
  have hlist : g.instIds b = f.instIds b := (hp.instIds b).resolve_right fun h => hb h.1
  rw [hasBlock_eq, hlist, hasBlock_eq]
  refine ⟨rfl, successors_eq_of_code hlist fun is his i hi => ?_⟩
  obtain ⟨op, hop⟩ := hf.listed b is i his hi
  exact (hp.code i).resolve_right fun h => hb (h.2 op b hop).1

theorem hasBlock_of (hp : f.Prunes gone g) (hb : g.hasBlock b = true) : f.hasBlock b = true := by
  rw [hasBlock_eq] at hb ⊢
  rcases hp.instIds b with heq | ⟨-, hnone⟩
  · rwa [heq] at hb
  · simp [hnone] at hb

end Prunes

/-- Functions that agree on what the entry reaches have block graphs that do so. -/
theorem blockGraph_agrees (hsize : g.blocks.size = f.blocks.size)
    (hsub : ∀ b, g.hasBlock b = true → f.hasBlock b = true)
    (hkeep : ∀ b, f.Reachable b → g.hasBlock b = f.hasBlock b ∧ g.successors b = f.successors b) :
    f.blockGraph.toFlowGraph.AgreesFrom g.blockGraph.toFlowGraph f.entry := by
  -- A successor of what is reached is reached, so it is live in both or in neither.
  have htargets : ∀ b, f.Reachable b → f.hasBlock b = true →
      (g.successors b).filter g.hasBlock = (f.successors b).filter f.hasBlock := by
    intro b hb hlive
    rw [(hkeep b hb).2]
    refine List.filter_congr fun s hs => ?_
    cases hfs : f.hasBlock s with
    | true =>
      have hstep := hb.step (mem_blockGraph_successorsOf.2 ⟨hlive, hfs, hs⟩)
      rw [(hkeep s hstep).1, hfs]
    | false => exact Bool.eq_false_iff.2 fun hgs => by simp [hsub s hgs] at hfs
  refine ⟨?_, fun b hb => ?_, fun s hs keep hreach => ?_⟩
  · exact (blockGraph_size g).trans (hsize.trans (blockGraph_size f).symm)
  · show g.blockGraph.successorsOf b = f.blockGraph.successorsOf b
    rw [blockGraph_successorsOf, blockGraph_successorsOf, (hkeep b hb).1]
    split
    · exact htargets b hb ‹_›
    · rfl
  · show (g.blockGraph.predecessorsOf s).filter keep = (f.blockGraph.predecessorsOf s).filter keep
    rw [blockGraph_predecessorsOf, blockGraph_predecessorsOf, List.filter_filter, List.filter_filter]
    have hhandles : g.blocks.handles = f.blocks.handles := by
      unfold Arena.handles
      exact congrArg (fun n => (List.range n).map Handle.mk) hsize
    unfold blockIds Arena.live
    rw [hhandles, List.filter_filter, List.filter_filter]
    refine List.filter_congr fun b _ => ?_
    cases hk : keep b with
    | false => simp
    | true =>
      have hb := hreach b hk
      show (_ && g.hasBlock b) = (_ && f.hasBlock b)
      rw [(hkeep b hb).1]
      cases hlive : f.hasBlock b with
      | false => simp
      | true => rw [htargets b hb hlive]

theorem Prunes.agrees (hp : f.Prunes gone g) (hf : f.Orderly)
    (hgone : ∀ b, gone b → ¬ f.Reachable b) :
    f.blockGraph.toFlowGraph.AgreesFrom g.blockGraph.toFlowGraph f.entry :=
  blockGraph_agrees hp.size (fun _ => hp.hasBlock_of) fun b hb =>
    hp.successors_eq hf fun hg => hgone b hg hb

theorem computeDominance_of_agrees
    (ha : f.blockGraph.toFlowGraph.AgreesFrom g.blockGraph.toFlowGraph f.entry)
    (hentry : g.entry = f.entry) {limit : Nat} {d : Dominance}
    (hd : f.computeDominance limit = .ok d) :
    ∃ d', g.computeDominance limit = .ok d' ∧ d'.tree = d.tree ∧ d'.frontiers = d.frontiers := by
  obtain ⟨tree, hrun, rfl⟩ : ∃ tree, f.blockGraph.toFlowGraph.dominators f.entry limit = .ok tree ∧
      ⟨f.blockGraph, tree, f.blockGraph.toFlowGraph.frontiers tree⟩ = d := by
    obtain ⟨tree, hrun, hd⟩ := bind_eq_ok.1 hd
    exact ⟨tree, hrun, pure_eq_ok.1 hd⟩
  have hconsistent := blockGraph_consistent f
  obtain ⟨hroot, hfor⟩ := FlowGraph.dominators_isFor hconsistent hrun
  refine ⟨⟨g.blockGraph, tree, g.blockGraph.toFlowGraph.frontiers tree⟩,
    bind_eq_ok.2 ⟨tree, ?_, rfl⟩, rfl, ?_⟩
  · show g.blockGraph.toFlowGraph.dominators g.entry limit = .ok tree
    rw [hentry, ha.dominators_eq hconsistent.below]
    exact hrun
  · rw [← hroot] at ha
    exact ha.frontiers_eq fun n => (hfor.mem_order_iff hconsistent).1

/-- The tree and the frontiers of the cached dominance are those that would be computed now. -/
def Current (f : Func) : Prop :=
  ∀ d, f.dominance = some d → ∃ d', f.computeDominance f.dominanceLimit = .ok d' ∧
    d'.tree = d.tree ∧ d'.frontiers = d.frontiers

theorem Current.of_none (hf : f.dominance = none) : f.Current := by
  intro d hd
  rw [hf] at hd
  cases hd

theorem Coherent.current (hf : f.Coherent) : f.Current := fun d hd => ⟨d, hf d hd, rfl, rfl⟩

theorem Current.congr (hf : f.Current) (hdom : g.dominance = f.dominance)
    (hlimit : g.dominanceLimit = f.dominanceLimit) (hgraph : g.blockGraph = f.blockGraph) :
    g.Current := by
  intro d hd
  rw [computeDominance, hgraph, hlimit]
  exact hf d (hdom ▸ hd)

/-- Only what the entry reaches counts. -/
theorem Current.of_agrees (hf : f.Current)
    (ha : f.blockGraph.toFlowGraph.AgreesFrom g.blockGraph.toFlowGraph f.entry)
    (hentry : g.entry = f.entry) (hlimit : g.dominanceLimit = f.dominanceLimit)
    (hdom : g.dominance = f.dominance ∨ g.dominance = none) : g.Current := by
  rcases hdom with hdom | hdom
  · intro d hd
    obtain ⟨d₀, hd₀, htree₀, hfrontiers₀⟩ := hf d (hdom ▸ hd)
    obtain ⟨d', hd', htree, hfrontiers⟩ := computeDominance_of_agrees ha hentry hd₀
    exact ⟨d', hlimit ▸ hd', htree.trans htree₀, hfrontiers.trans hfrontiers₀⟩
  · exact .of_none hdom

structure Kept (f : Func) : Prop where
  orderly : f.Orderly
  current : f.Current

theorem Linked.orderly (hf : f.Linked fun _ => False) : f.Orderly := by
  have hget : ∀ b is, f.instIds b = some is → ∃ data, f.blocks.get? b = some data ∧
      data.insts = is := fun b is his => Option.map_eq_some_iff.1 his
  refine ⟨fun b is i his hi => ?_, fun b is i op c his hi hc hterm => ?_, fun i op b t hc ht => ?_⟩
  · obtain ⟨data, hb, rfl⟩ := hget b is his
    obtain ⟨inst, hinst, rfl⟩ := hf.listed_inst b data i hb hi
    exact ⟨inst.opcode, by rw [code, hinst, Option.map_some]⟩
  · obtain ⟨data, hb, rfl⟩ := hget b is his
    obtain ⟨inst, hinst, heq⟩ := Option.map_eq_some_iff.1 hc
    obtain ⟨rfl, rfl⟩ := Prod.mk.inj heq
    exact hf.terminator_last b data i inst hb hi hinst hterm
  · obtain ⟨inst, hinst, heq⟩ := Option.map_eq_some_iff.1 hc
    obtain ⟨rfl, rfl⟩ := Prod.mk.inj heq
    exact hasBlock_lt (hasBlock_iff.2 (hf.target_live i inst t hinst id ht))

theorem Sound.kept (hf : f.Sound) : f.Kept := ⟨hf.linked.orderly, hf.coherent.current⟩

theorem Kept.prunes (hf : f.Kept) (hp : f.Prunes gone g) (hgone : ∀ b, gone b → ¬ f.Reachable b) :
    g.Kept :=
  ⟨hp.orderly hf.orderly, hf.current.of_agrees (hp.agrees hf.orderly hgone) hp.entry hp.limit
    hp.dominance⟩

theorem Kept.same (hf : f.Kept) (hs : f.SameOutline g) : g.Kept := by
  have hp : f.Prunes (fun _ => False) g := .same (.refl f) hs
  exact hf.prunes hp fun _ => False.elim

theorem Kept.invalidate (hf : f.Kept) : f.invalidateDominance.Kept :=
  ⟨⟨hf.orderly.listed, hf.orderly.last, hf.orderly.target_lt⟩, .of_none rfl⟩

end Func

end Midend
