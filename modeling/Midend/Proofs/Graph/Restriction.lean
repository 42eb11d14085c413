import Midend.Graph.Frontier
import Midend.Proofs.Graph.Preorder

namespace Midend.FlowGraph

/-- `g'` has the edges of `g` between the nodes that `entry` reaches in `g`. -/
structure AgreesFrom (g g' : FlowGraph) (entry : BlockId) : Prop where
  size : g'.size = g.size
  successors : ∀ n, g.Reaches entry n → g'.successors n = g.successors n
  predecessors : ∀ n, g.Reaches entry n → ∀ keep : BlockId → Bool,
    (∀ p, keep p = true → g.Reaches entry p) →
    (g'.predecessors n).filter keep = (g.predecessors n).filter keep

namespace AgreesFrom

variable {g g' : FlowGraph} {entry : BlockId} {stack order : List BlockId} {visited : IndexSet}

/-- Two walks with enough fuel, however much, go the same way. -/
theorem preorderLoop_eq (h : g.AgreesFrom g' entry)
    (below : ∀ n, ∀ s ∈ g.successors n, s.index < g.size) {fuel fuel' : Nat}
    (hw : g.WalkInv entry stack visited order)
    (hfuel : stack.length + g.pendingEdges entry order < fuel)
    (hfuel' : stack.length + g'.pendingEdges entry order < fuel') :
    g'.preorderLoop fuel' stack visited order = g.preorderLoop fuel stack visited order := by
  induction fuel generalizing fuel' stack visited order with
  | zero => omega
  | succ fuel ih =>
    cases fuel' with
    | zero => omega
    | succ fuel' =>
      cases stack with
      | nil => rfl
      | cons n stack =>
        rw [List.length_cons] at hfuel hfuel'
        unfold preorderLoop
        by_cases hv : visited.contains n.index = true
        · rw [if_pos hv, if_pos hv]
          exact ih (hw.skip ((hw.visited_iff n).1 hv)) (by omega) (by omega)
        · have hn : n ∉ order := fun hn => hv ((hw.visited_iff n).2 hn)
          have hfound : g.Reaches entry n ∧ (n = entry ∨ n.index < g.size) := by
            rcases hw.source n List.mem_cons_self with rfl | ⟨y, hy, hs⟩
            · exact ⟨.refl _, .inl rfl⟩
            · exact ⟨(hw.discovered.reaches hy).step hs, .inr (below y n hs)⟩
          -- Whatever is popped is reached, so both graphs have the same successors there.
          have hsucc := h.successors n hfound.1
          have hfresh : g'.freshSuccessors (visited.insert n.index) n =
              g.freshSuccessors (visited.insert n.index) n := by
            rw [freshSuccessors, hsucc, freshSuccessors]
          have hpend := pendingEdges_cons hfound.2 hn
          have hpend' := pendingEdges_cons (g := g') (h.size ▸ hfound.2) hn
          have hlen : (g.freshSuccessors (visited.insert n.index) n).length ≤
              (g.successors n).length := List.length_filter_le _ _
          rw [hsucc] at hpend'
          rw [if_neg hv, if_neg hv]
          dsimp only
          rw [hfresh]
          refine ih (hw.enter hn) ?_ ?_
          all_goals
            rw [List.length_append]
            omega

theorem preorder_eq (h : g.AgreesFrom g' entry)
    (below : ∀ n, ∀ s ∈ g.successors n, s.index < g.size) :
    g'.preorder entry = g.preorder entry := by
  rw [preorder, preorder, h.size]
  refine congrArg List.reverse (h.preorderLoop_eq below (.init g entry) ?_ ?_)
  all_goals
    rw [pendingEdges_nil, List.length_singleton]
    omega

def Confined (g : FlowGraph) (entry : BlockId) (visited : IndexSet) : Prop :=
  ∀ n : BlockId, visited.contains n.index = true → g.Reaches entry n

theorem Confined.insert {n : BlockId} (h : Confined g entry visited) (hn : g.Reaches entry n) :
    Confined g entry (visited.insert n.index) := by
  intro m hm
  rcases IndexSet.contains_insert_index.1 hm with rfl | hm
  · exact hn
  · exact h m hm

theorem sweepNode_eq (h : g.AgreesFrom g' entry) {s : Sweep} {n : BlockId}
    (hs : Confined g entry s.visited) (hn : g.Reaches entry n) :
    g'.sweepNode s n = g.sweepNode s n := by
  rw [sweepNode, candidate, h.predecessors n hn _ hs, sweepNode, candidate]

theorem sweepNode_confined {s s' : Sweep} {n : BlockId} (hs : Confined g entry s.visited)
    (hn : g.Reaches entry n) (hrun : g.sweepNode s n = .ok s') : Confined g entry s'.visited := by
  unfold sweepNode at hrun
  split at hrun
  · cases hrun
  · obtain rfl := Except.ok.inj hrun
    exact hs.insert hn

theorem foldlM_sweepNode_eq (h : g.AgreesFrom g' entry) {ns : List BlockId} {s : Sweep}
    (hns : ∀ n ∈ ns, g.Reaches entry n) (hs : Confined g entry s.visited) :
    ns.foldlM g'.sweepNode s = ns.foldlM g.sweepNode s ∧
      ∀ s', ns.foldlM g.sweepNode s = .ok s' → Confined g entry s'.visited := by
  induction ns generalizing s with
  | nil =>
    refine ⟨rfl, fun s' hrun => ?_⟩
    obtain rfl := Except.ok.inj hrun
    exact hs
  | cons n ns ih =>
    obtain ⟨hn, hrest⟩ := List.forall_mem_cons.1 hns
    rw [List.foldlM_cons, List.foldlM_cons, h.sweepNode_eq hs hn]
    cases hrun : g.sweepNode s n with
    | error err => exact ⟨rfl, fun s' hs' => by cases hs'⟩
    | ok s₁ => exact ih hrest (sweepNode_confined hs hn hrun)

theorem settle_eq (h : g.AgreesFrom g' entry) {ns : List BlockId}
    (hns : ∀ n ∈ ns, g.Reaches entry n) (limit left : Nat) {table : IdomTable}
    (hs : Confined g entry visited) :
    g'.settle ns limit left table visited = g.settle ns limit left table visited := by
  induction left generalizing table visited with
  | zero => rfl
  | succ left ih =>
    obtain ⟨heq, hkept⟩ := h.foldlM_sweepNode_eq (s := ⟨table, visited, false⟩) hns hs
    rw [settle, settle, heq]
    cases hrun : ns.foldlM g.sweepNode ⟨table, visited, false⟩ with
    | error err => rfl
    | ok s =>
      simp only [bind, Except.bind]
      split
      · exact ih (hkept s hrun)
      · rfl

theorem dominators_eq (h : g.AgreesFrom g' entry)
    (below : ∀ n, ∀ s ∈ g.successors n, s.index < g.size) (limit : Nat) :
    g'.dominators entry limit = g.dominators entry limit := by
  have hsettle : ∀ table : IdomTable, g'.settle ((g.preorder entry).drop 1) limit limit table
      ((IndexSet.withCapacity (max g.size (entry.index + 1))).insert entry.index) =
      g.settle ((g.preorder entry).drop 1) limit limit table
      ((IndexSet.withCapacity (max g.size (entry.index + 1))).insert entry.index) := by
    intro table
    refine h.settle_eq (fun n hn => ?_) limit limit (Confined.insert (fun n hn => ?_) (.refl entry))
    · exact (mem_preorder below entry n).1 (List.mem_of_mem_drop hn)
    · simp at hn
  rw [dominators, h.preorder_eq below, h.size, hsettle, dominators]

theorem reaches_of_mem_walkUp {t : DominatorTree} (horder : ∀ n ∈ t.order, g.Reaches entry n)
    {fuel : Nat} {n m : BlockId} (hn : g.Reaches entry n) (hm : m ∈ t.walkUp fuel n) :
    g.Reaches entry m := by
  induction fuel generalizing n with
  | zero =>
    obtain rfl := List.mem_singleton.1 hm
    exact hn
  | succ fuel ih =>
    rcases List.mem_append.1 hm with hm | hm
    · obtain ⟨c, hc, hm⟩ := List.mem_flatMap.1 hm
      exact ih (horder c (List.mem_of_mem_drop (List.mem_filter.1 hc).1)) hm
    · obtain rfl := List.mem_singleton.1 hm
      exact hn

theorem frontiers_eq {t : DominatorTree} (h : g.AgreesFrom g' t.entry)
    (horder : ∀ n ∈ t.order, g.Reaches t.entry n) : g'.frontiers t = g.frontiers t := by
  rw [frontiers, h.size, frontiers]
  refine List.foldl_ext _ _ _ fun f n hn => ?_
  have hreach := reaches_of_mem_walkUp horder (.refl t.entry) hn
  rw [frontierOf, h.successors n hreach, frontierOf]

end AgreesFrom

end Midend.FlowGraph
