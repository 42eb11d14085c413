import Mathlib.Order.Bounds.Basic
import Midend.Proofs.Edit.Built
import Midend.Proofs.Func.Sites

namespace Midend

namespace Dominance

variable {d : Dominance} {keep : BlockId → Bool} {fuel : Nat} {start past queue : List BlockId}
  {queued : IndexSet} {found : OrderedSet BlockId} {b w y : BlockId}

/-- Between two rounds that began with the blocks `start`: `past` are the blocks worked off. -/
structure Expanding (d : Dominance) (keep : BlockId → Bool) (start past queue : List BlockId)
    (queued : IndexSet) (found : OrderedSet BlockId) : Prop where
  nodup : (past ++ queue).Nodup
  mem_queued : ∀ b : BlockId, queued.contains b.index = true ↔ b ∈ past ++ queue
  bounded : ∀ b ∈ past ++ queue, b ∈ start ∨ b.index < d.frontiers.size
  kept : ∀ b ∈ found, keep b = true
  listed : ∀ b ∈ found, b ∈ past ++ queue
  closed : ∀ y ∈ past, ∀ w ∈ d.frontier y, keep w = true → w ∈ found

theorem contains_index_foldl {bs : List BlockId} {q : IndexSet} :
    (bs.foldl (fun q w => q.insert w.index) q).contains b.index = true ↔
      b ∈ bs ∨ q.contains b.index = true := by
  rw [IndexSet.contains_foldl_insert]
  refine or_congr ⟨?_, fun hb => ⟨b, hb, rfl⟩⟩ Iff.rfl
  rintro ⟨a, ha, heq⟩
  exact Handle.ext heq ▸ ha

theorem IsOf.index_lt_of_mem_frontier {f : Func} (hd : d.IsOf f) (hw : w ∈ d.frontier y) :
    w.index < d.frontiers.size := by
  rw [frontier, hd.frontiers] at hw
  have hlt := FlowGraph.index_lt_of_mem_frontiers (Func.blockGraph_consistent f) hw
  rw [hd.frontiers, FlowGraph.size_frontiers]
  omega

theorem Expanding.step (hsize : ∀ y, ∀ w ∈ d.frontier y, w.index < d.frontiers.size)
    (h : Expanding d keep start past (b :: queue) queued found) :
    let new := (d.frontier b).toList.filter fun w => !found.contains w && keep w
    let next := new.filter fun w => !queued.contains w.index
    Expanding d keep start (past ++ [b]) (queue ++ next)
      (next.foldl (fun q w => q.insert w.index) queued) (new.foldl OrderedSet.insert found) := by
  intro new next
  have hnew : ∀ w, w ∈ new ↔ w ∈ d.frontier b ∧ w ∉ found ∧ keep w = true := by
    intro w
    simp only [new, List.mem_filter, OrderedSet.mem_toList, Bool.and_eq_true, Bool.not_eq_true',
      ← Bool.not_eq_true, OrderedSet.contains_iff_mem]
  have hnext : ∀ w, w ∈ next ↔ w ∈ new ∧ w ∉ past ++ b :: queue := by
    intro w
    simp only [next, List.mem_filter, Bool.not_eq_true', ← Bool.not_eq_true, h.mem_queued]
  have hassoc : past ++ [b] ++ (queue ++ next) = past ++ b :: queue ++ next := by simp
  refine ⟨?_, fun w => ?_, fun w hw => ?_, fun w hw => ?_, fun w hw => ?_, fun y hy w hw hk => ?_⟩
  · rw [hassoc, List.nodup_append]
    refine ⟨h.nodup, ((OrderedSet.toList_nodup _).filter _).filter _, ?_⟩
    rintro w hw _ hw' rfl
    exact ((hnext w).1 hw').2 hw
  · rw [contains_index_foldl, h.mem_queued, hassoc, List.mem_append (s := past ++ b :: queue)]
    exact or_comm
  · rw [hassoc, List.mem_append] at hw
    rcases hw with hw | hw
    · exact h.bounded w hw
    · exact .inr (hsize b w ((hnew w).1 ((hnext w).1 hw).1).1)
  · rcases OrderedSet.mem_foldl_insert.1 hw with hw | hw
    · exact ((hnew w).1 hw).2.2
    · exact h.kept w hw
  · rw [hassoc, List.mem_append]
    rcases OrderedSet.mem_foldl_insert.1 hw with hw | hw
    · by_cases hold : w ∈ past ++ b :: queue
      · exact .inl hold
      · exact .inr ((hnext w).2 ⟨hw, hold⟩)
    · exact .inl (h.listed w hw)
  · rw [OrderedSet.mem_foldl_insert]
    by_cases hfound : w ∈ found
    · exact .inr hfound
    rcases List.mem_append.1 hy with hy | hy
    · exact .inr (h.closed y hy w hw hk)
    · obtain rfl := List.mem_singleton.1 hy
      exact .inl ((hnew w).2 ⟨hw, hfound, hk⟩)

/-- Each starting block and each block on a frontier is worked off once. -/
theorem Expanding.length_past_le (h : Expanding d keep start past queue queued found) :
    past.length ≤ start.length + d.frontiers.size := by
  have hpast : past.Nodup := (List.nodup_append.1 h.nodup).1
  have hstart := (List.subperm_of_subset (hpast.filter (· ∈ start)) fun b hb => by
    simpa using (List.mem_filter.1 hb).2).length_le
  have hrest := FlowGraph.length_le_of_index_lt (hpast.filter fun b => !decide (b ∈ start))
    fun b hb => by
      obtain ⟨hmem, hnot⟩ := List.mem_filter.1 hb
      exact (h.bounded b (List.mem_append_left _ hmem)).resolve_left (by simpa using hnot)
  have hsplit := past.length_eq_length_filter_add (· ∈ start)
  omega

theorem spread_spec (hsize : ∀ y, ∀ w ∈ d.frontier y, w.index < d.frontiers.size)
    (hfuel : start.length + d.frontiers.size < fuel + past.length)
    (h : Expanding d keep start past queue queued found) :
    (∀ b ∈ d.spread keep fuel queue queued found, keep b = true) ∧
      ∀ y, y ∈ past ++ queue ∨ y ∈ d.spread keep fuel queue queued found →
        ∀ w ∈ d.frontier y, keep w = true → w ∈ d.spread keep fuel queue queued found := by
  induction fuel generalizing past queue queued found with
  | zero =>
    have hle := h.length_past_le
    omega
  | succ fuel ih =>
    cases queue with
    | nil =>
      refine ⟨h.kept, fun y hy => h.closed y ?_⟩
      simpa using hy.elim id (h.listed y)
    | cons b queue =>
      have hlen : start.length + d.frontiers.size < fuel + (past ++ [b]).length := by
        simp only [List.length_append, List.length_singleton]
        omega
      obtain ⟨hkept, hclosed⟩ := ih hlen (h.step hsize)
      refine ⟨hkept, fun y hy => hclosed y (hy.imp_left fun hy => ?_)⟩
      have hmem : y ∈ past ++ [b] ++ queue := by simpa using hy
      rw [← List.append_assoc]
      exact List.mem_append_left _ hmem

theorem iteratedFrontier_spec {f : Func} (hd : d.IsOf f) (blocks : List BlockId)
    (keep : BlockId → Bool) :
    (∀ b ∈ d.iteratedFrontier blocks keep, keep b = true) ∧
      ∀ y, y ∈ blocks ∨ y ∈ d.iteratedFrontier blocks keep →
        ∀ w ∈ d.frontier y, keep w = true → w ∈ d.iteratedFrontier blocks keep := by
  have hstart : Expanding d keep blocks.eraseDups [] blocks.eraseDups
      (blocks.eraseDups.foldl (fun q b => q.insert b.index)
        (.withCapacity d.frontiers.size)) ∅ := by
    refine ⟨nodup_eraseDups blocks, fun b => ?_, fun b hb => .inl hb, ?_, ?_, ?_⟩
    · rw [contains_index_foldl, IndexSet.contains_withCapacity]
      simp
    · exact fun b hb => absurd hb (OrderedSet.notMem_empty b)
    · exact fun b hb => absurd hb (OrderedSet.notMem_empty b)
    · simp
  have hfuel : blocks.eraseDups.length + d.frontiers.size <
      blocks.eraseDups.length + d.frontiers.size + 1 + ([] : List BlockId).length := by
    rw [List.length_nil]
    omega
  obtain ⟨hkept, hclosed⟩ := spread_spec (fun _ _ => hd.index_lt_of_mem_frontier) hfuel hstart
  refine ⟨hkept, fun y hy => hclosed y (hy.imp_left fun hy => ?_)⟩
  exact List.mem_eraseDups.2 hy

theorem spread_subset {R : Set BlockId} (hfound : ∀ b ∈ found, b ∈ R)
    (hqueue : ∀ y ∈ queue, ∀ w ∈ d.frontier y, keep w = true → w ∈ R)
    (hclosed : ∀ y ∈ R, ∀ w ∈ d.frontier y, keep w = true → w ∈ R) :
    ∀ b ∈ d.spread keep fuel queue queued found, b ∈ R := by
  induction fuel generalizing queue queued found with
  | zero => exact hfound
  | succ fuel ih =>
    cases queue with
    | nil => exact hfound
    | cons y queue =>
      obtain ⟨hy, hqueue⟩ := List.forall_mem_cons.1 hqueue
      have hnew : ∀ w ∈ (d.frontier y).toList.filter (fun w => !found.contains w && keep w),
          w ∈ R := by
        intro w hw
        obtain ⟨hw, hkeep⟩ := List.mem_filter.1 hw
        exact hy w hw (Bool.and_eq_true_iff.1 hkeep).2
      refine ih (fun b hb => ?_) fun z hz => ?_
      · exact (OrderedSet.mem_foldl_insert.1 hb).elim (hnew b) (hfound b)
      · rcases List.mem_append.1 hz with hz | hz
        · exact hqueue z hz
        · exact hclosed z (hnew z (List.mem_filter.1 hz).1)

theorem iteratedFrontier_subset {blocks : List BlockId} {R : Set BlockId}
    (hclosed : ∀ y, y ∈ blocks ∨ y ∈ R → ∀ w ∈ d.frontier y, keep w = true → w ∈ R) :
    ∀ b ∈ d.iteratedFrontier blocks keep, b ∈ R :=
  spread_subset (fun b hb => absurd hb (OrderedSet.notMem_empty b))
    (fun y hy => hclosed y (.inl (List.mem_eraseDups.1 hy))) fun y hy => hclosed y (.inr hy)

end Dominance

namespace Func

variable {f : Func} {d : Dominance} {limit : Nat} {home w y : BlockId}

/-- What is on the frontier of a block got there along an edge that leaves its dominance. -/
theorem exists_edge_of_mem_frontier (h : f.computeDominance limit = .ok d)
    (hw : w ∈ d.frontier y) :
    (∃ q, f.Dominates y q ∧ f.Edge q w) ∧ ¬ f.StrictlyDominates y w := by
  have hd := computeDominance_isOf h
  have hcons := blockGraph_consistent f
  obtain ⟨tree, htree, hof⟩ := bind_eq_ok.1 h
  obtain rfl := pure_eq_ok.1 hof
  obtain ⟨hentry, ht⟩ := FlowGraph.dominators_isFor hcons htree
  have hsize : ∀ x, f.blockGraph.toFlowGraph.Reaches tree.entry x →
      x.index < max f.blockGraph.toFlowGraph.size tree.table.size := by
    intro x hx
    exact FlowGraph.index_lt_of_dominators hcons htree (hentry ▸ hx)
  have hy : f.blockGraph.toFlowGraph.Reaches tree.entry y := by
    by_contra hy
    have hempty := FlowGraph.frontiers_of_unreachable hcons ht hsize hy
    exact OrderedSet.notMem_empty w (hempty ▸ hw)
  have hends := FlowGraph.exists_edge_of_mem_frontiers hcons ht hsize hy hw
  rwa [show tree.entry = f.entry from hd.entry] at hends

/-- What a block strictly dominates is on the frontiers of blocks that it strictly dominates only: no
way into its dominance leads over a frontier from outside. -/
theorem strictlyDominates_of_mem_frontier (h : f.computeDominance limit = .ok d)
    (hw : w ∈ d.frontier y) (hhome : f.StrictlyDominates home w) : f.StrictlyDominates home y := by
  obtain ⟨⟨q, hyq, hqw⟩, hyw⟩ := exists_edge_of_mem_frontier h hw
  have hhomeq : f.Dominates home q := hhome.of_step hyq.reaches hqw
  -- Both dominate `q`; if `y` were the one above, it would strictly dominate `w` as well.
  have hbelow : ¬ f.Dominates y home := fun hy => hyw (.trans_left hy hhome)
  refine ⟨?_, (hhomeq.total hyq).resolve_right hbelow⟩
  rintro rfl
  exact hyw hhome

end Func

open Func

/-- The iterated frontier of some blocks is the least set that has the frontiers of these blocks and
of its own members. To keep only what `home` strictly dominates, without going on from the blocks
that are not kept, gives all of its members that `home` strictly dominates. -/
theorem Dominance.iteratedFrontier_least_and_filter (f : Func) (limit : Nat) (d : Dominance)
    (h : f.computeDominance limit = .ok d) (blocks : List BlockId) (home : BlockId) :
    IsLeast {R : Set BlockId | ∀ y, y ∈ blocks ∨ y ∈ R → ∀ w ∈ d.frontier y, w ∈ R}
      {b | b ∈ d.iteratedFrontier blocks fun _ => true} ∧
    (d.iteratedFrontier blocks (d.strictlyDominates home)).toList =
      (d.iteratedFrontier blocks fun _ => true).toList.filter (d.strictlyDominates home) := by
  have hd := computeDominance_isOf h
  obtain ⟨-, hclosed⟩ := iteratedFrontier_spec hd blocks fun _ => true
  obtain ⟨hkept, hclosed'⟩ := iteratedFrontier_spec hd blocks (d.strictlyDominates home)
  have hleast : ∀ R : Set BlockId, (∀ y, y ∈ blocks ∨ y ∈ R → ∀ w ∈ d.frontier y, w ∈ R) →
      ∀ b ∈ d.iteratedFrontier blocks fun _ => true, b ∈ R :=
    fun R hR => iteratedFrontier_subset fun y hy w hw _ => hR y hy w hw
  have hmem : ∀ b, b ∈ d.iteratedFrontier blocks (d.strictlyDominates home) ↔
      (b ∈ d.iteratedFrontier blocks fun _ => true) ∧ d.strictlyDominates home b = true := by
    intro b
    constructor
    · intro hb
      refine ⟨?_, hkept b hb⟩
      exact iteratedFrontier_subset (R := {b | b ∈ d.iteratedFrontier blocks fun _ => true})
        (fun y hy w hw _ => hclosed y hy w hw rfl) b hb
    · rintro ⟨hb, hhome⟩
      -- The blocks that are kept if they are below `home` form a closed set.
      refine hleast {b | d.strictlyDominates home b = true →
        b ∈ d.iteratedFrontier blocks (d.strictlyDominates home)} (fun y hy w hw hhome => ?_) b hb
        hhome
      refine hclosed' y (hy.imp_right fun hy => hy ?_) w hw hhome
      exact hd.strictlyDominates_iff.2
        (strictlyDominates_of_mem_frontier h hw (hd.strictlyDominates_iff.1 hhome))
  refine ⟨⟨fun y hy w hw => hclosed y hy w hw rfl, fun R hR b hb => hleast R hR b hb⟩, ?_⟩
  refine OrderedSet.eq_of_mem_iff (OrderedSet.ascending _) ((OrderedSet.ascending _).filter _)
    fun b => ?_
  rw [List.mem_filter]
  exact hmem b

/-- A loop around a branch, with a way past the loop. -/
def branchInLoop : List Call :=
  [.addArgument, .addBlock, .addBlock, .addBlock, .addBlock,
    .append ⟨0⟩ (.condBranch ⟨1⟩ ⟨4⟩) [⟨0⟩], .append ⟨1⟩ (.condBranch ⟨2⟩ ⟨3⟩) [⟨0⟩],
    .append ⟨2⟩ (.branch ⟨3⟩) [], .append ⟨3⟩ (.condBranch ⟨1⟩ ⟨4⟩) [⟨0⟩],
    .append ⟨4⟩ .ret []]

/-- From the arm of the branch, the head of the loop and the end are reached over the frontier of the
block where the arms meet. Below the head only this block is kept. -/
theorem branchInLoop_placement :
    ∃ f d, f = branchInLoop.foldl (fun f c => c.run f) (Func.new "f") ∧
      f.computeDominance 8 = .ok d ∧
      (d.iteratedFrontier [⟨2⟩] fun _ => true).toList = [⟨1⟩, ⟨3⟩, ⟨4⟩] ∧
      (d.iteratedFrontier [⟨2⟩] (d.strictlyDominates ⟨1⟩)).toList = [⟨3⟩] := by
  obtain ⟨f, hf⟩ : ∃ f : Func, f = branchInLoop.foldl (fun f c => c.run f) (Func.new "f") :=
    ⟨_, rfl⟩
  have hrun : (f.computeDominance 8).map (fun d =>
      ((d.iteratedFrontier [⟨2⟩] fun _ => true).toList,
        [⟨1⟩, ⟨3⟩, ⟨4⟩].filter (d.strictlyDominates ⟨1⟩))) =
      .ok ([⟨1⟩, ⟨3⟩, ⟨4⟩], [⟨3⟩]) := by
    rw [hf]
    decide +kernel
  cases hd : f.computeDominance 8 with
  | error err => simp [hd, Except.map] at hrun
  | ok d =>
    rw [hd] at hrun
    obtain ⟨hall, hbelow⟩ := Prod.mk.inj (Except.ok.inj hrun)
    refine ⟨f, d, hf, hd, hall, ?_⟩
    rw [(Dominance.iteratedFrontier_least_and_filter f 8 d hd [⟨2⟩] ⟨1⟩).2, hall, hbelow]

end Midend
