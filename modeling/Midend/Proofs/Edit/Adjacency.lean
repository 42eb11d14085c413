import Midend.Proofs.ControlTree.Walk
import Midend.Proofs.Edit.Cached
import Midend.Proofs.Func.Accepted

namespace Midend

namespace Func

variable {f : Func} {b s : BlockId}

theorem terminatorOpcode?_eq_some_iff {op : Opcode} : f.terminatorOpcode? b = some op ↔
    ∃ i inst, f.terminator b = .ok (some i) ∧ f.insts.get? i = some inst ∧ inst.opcode = op := by
  constructor
  · intro hop
    obtain ⟨data, i, inst, hb, hlast, hi, hterm, hop⟩ := terminatorOpcode?_eq_some_last.1 hop
    refine ⟨i, inst, bind_eq_ok.2 ⟨data, block_eq_ok.2 hb, ?_⟩, hi, hop⟩
    rw [hlast]
    exact bind_eq_ok.2 ⟨inst, inst_eq_ok.2 hi, pure_eq_ok.2 (if_pos hterm)⟩
  · rintro ⟨i, inst, hterm, hi, rfl⟩
    obtain ⟨inst', hi', hop⟩ := terminator_eq_ok hterm
    rw [hop, Option.some.inj (hi.symm.trans hi')]

theorem mem_successors_iff : s ∈ f.successors b ↔
    ∃ i inst, f.terminator b = .ok (some i) ∧ f.insts.get? i = some inst ∧
      s ∈ inst.opcode.targets := by
  have hop : s ∈ f.successors b ↔ ∃ op, f.terminatorOpcode? b = some op ∧ s ∈ op.targets := by
    rw [successors]
    cases f.terminatorOpcode? b <;> simp
  rw [hop]
  constructor
  · rintro ⟨op, hop, hs⟩
    obtain ⟨i, inst, hterm, hi, rfl⟩ := terminatorOpcode?_eq_some_iff.1 hop
    exact ⟨i, inst, hterm, hi, hs⟩
  · rintro ⟨i, inst, hterm, hi, hs⟩
    exact ⟨inst.opcode, terminatorOpcode?_eq_some_iff.2 ⟨i, inst, hterm, hi, rfl⟩, hs⟩

theorem successors_of_dead (hb : f.hasBlock b = false) : f.successors b = [] := by
  have hnone : f.blocks.get? b = none := Option.not_isSome_iff_eq_none.1 (Bool.eq_false_iff.1 hb)
  simp [successors, terminatorOpcode?, hnone]

theorem Linked.filter_successors (h : f.Linked fun _ => False) (b : BlockId) :
    (f.successors b).filter f.hasBlock = f.successors b :=
  List.filter_eq_self.2 fun _ hs => hasBlock_iff.2 (h.successor_live hs)

/-- The snapshot and the function are one graph. -/
theorem Linked.toFlowGraph_blockGraph (h : f.Linked fun _ => False) :
    f.blockGraph.toFlowGraph = f.toFlowGraph := by
  have hsucc : f.blockGraph.successorsOf = f.successors := by
    funext b
    rw [blockGraph_successorsOf, h.filter_successors]
    split
    · rfl
    · exact (successors_of_dead (Bool.eq_false_iff.2 ‹_›)).symm
  have hpred : f.blockGraph.predecessorsOf = f.predecessors := by
    funext b
    rw [blockGraph_predecessorsOf, predecessors]
    simp only [h.filter_successors]
  rw [BlockGraph.toFlowGraph, blockGraph_size, hsucc, hpred]
  rfl

theorem reachableBlocks_of_computeDominance (h : f.Linked fun _ => False) {limit : Nat}
    {d : Dominance} (hd : f.computeDominance limit = .ok d) :
    d.reachableBlocks = f.reachableBlocks := by
  have hof := computeDominance_isOf hd
  rw [Dominance.reachableBlocks, hof.tree.order_eq, hof.entry, h.toFlowGraph_blockGraph]
  rfl

end Func

open Func

/-- After any sequence of actions that forces no value away, the lists of a live block in the
snapshot are its successors and its predecessors, that is, the live blocks whose terminator targets
it, in arena order and each once. So predecessors are the exact converse of successors, and the
preorder of a dominance computed from the snapshot is that of the function. -/
theorem snapshot_agrees (name : String) (actions : List Action)
    (hforced : ∀ a ∈ actions, a.isForced = false) :
    let f := Action.build name actions
    (∀ b, f.hasBlock b = true →
      f.blockGraph.successorsOf b = f.successors b ∧
      f.blockGraph.predecessorsOf b = f.predecessors b ∧
      (∀ p, p ∈ f.predecessors b ↔ f.hasBlock p = true ∧ ∃ i inst,
        f.terminator p = .ok (some i) ∧ f.insts.get? i = some inst ∧ b ∈ inst.opcode.targets) ∧
      (f.predecessors b).Pairwise fun p q => p.index < q.index) ∧
    (∀ b p, p ∈ f.blockGraph.predecessorsOf b ↔ b ∈ f.blockGraph.successorsOf p) ∧
    (∀ b, (f.blockGraph.predecessorsOf b).Nodup) ∧
    (∀ limit, f.reachableBlocks.length ≤ limit → ∃ d, f.computeDominance limit = .ok d) ∧
    ∀ limit d, f.computeDominance limit = .ok d →
      d.graph = f.blockGraph ∧ d.reachableBlocks = f.reachableBlocks := by
  intro f
  have hlinked : f.Linked fun _ => False := (Action.build_sound name hforced).linked
  have hgraph := hlinked.toFlowGraph_blockGraph
  refine ⟨fun b _ => ⟨congrArg (·.successors b) hgraph, congrArg (·.predecessors b) hgraph, ?_,
    f.blocks.live_ascending.filter _⟩, (blockGraph_consistent f).converse,
    (blockGraph_consistent f).distinct, fun limit hlimit => ?_, fun limit d hd => ?_⟩
  · intro p
    rw [predecessors, List.mem_filter, mem_blockIds, List.contains_iff_mem, mem_successors_iff]
  · exact computeDominance_ok_of_length (hgraph ▸ hlimit)
  · exact ⟨(computeDominance_isOf hd).graph, reachableBlocks_of_computeDominance hlinked hd⟩

/-- A loop that is entered by both edges of one branch, a stray block that joins it, a block without
an end and one that is taken away again. -/
def doubledEdge : List Action :=
  [.call .addArgument, .call .addBlock, .call .addBlock, .call .addBlock, .call .addBlock,
    .call (.append ⟨0⟩ (.condBranch ⟨2⟩ ⟨2⟩) [⟨0⟩]), .call (.append ⟨1⟩ (.branch ⟨2⟩) []),
    .call (.append ⟨2⟩ (.condBranch ⟨2⟩ ⟨3⟩) [⟨0⟩]), .call (.append ⟨4⟩ (.branch ⟨2⟩) []),
    .call (.removeBlock ⟨2⟩), .call (.removeBlock ⟨1⟩), .call .dominance]

theorem doubledEdge_snapshot :
    let f := Action.build "f" doubledEdge
    f.hasBlock ⟨1⟩ = false ∧ f.terminator ⟨3⟩ = .ok none ∧
      f.blockGraph.successorsOf ⟨0⟩ = [⟨2⟩, ⟨2⟩] ∧
      f.blockGraph.predecessorsOf ⟨2⟩ = [⟨0⟩, ⟨2⟩, ⟨4⟩] ∧
      f.blockGraph.successorsOf ⟨3⟩ = [] ∧
      ∃ d, f.computeDominance 3 = .ok d ∧ d.reachableBlocks = [⟨0⟩, ⟨2⟩, ⟨3⟩] := by
  intro f
  obtain ⟨hlists, -, -, hok, horder⟩ := snapshot_agrees "f" doubledEdge (by decide)
  obtain ⟨d, hd⟩ := hok 3 (by decide +kernel)
  refine ⟨by decide +kernel, by decide +kernel, (hlists ⟨0⟩ ?_).1.trans ?_,
    (hlists ⟨2⟩ ?_).2.1.trans ?_, (hlists ⟨3⟩ ?_).1.trans ?_, d, hd, (horder 3 d hd).2.trans ?_⟩
  all_goals decide +kernel

end Midend
