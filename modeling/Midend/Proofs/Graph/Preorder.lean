import Mathlib.Data.List.Nodup
import Midend.Graph.Traversal
import Midend.Proofs.Graph.Paths
import Midend.Proofs.IndexSet

namespace Midend.FlowGraph

/-- Successors stay below the size, and the predecessor lists are the converse of the successor
lists, each node once. -/
structure Consistent (g : FlowGraph) : Prop where
  below : ∀ n, ∀ s ∈ g.successors n, s.index < g.size
  converse : ∀ n p, p ∈ g.predecessors n ↔ n ∈ g.successors p
  distinct : ∀ n, (g.predecessors n).Nodup

/-- A list of nodes, latest first, without repetition, that begins with `start` and in which each
other node has a predecessor before it. -/
def Discovered (g : FlowGraph) (start : BlockId) : List BlockId → Prop
  | [] => True
  | x :: rest =>
    (x = start ∧ rest = [] ∨ ∃ y ∈ rest, x ∈ g.successors y) ∧ x ∉ rest ∧ Discovered g start rest

variable {g : FlowGraph} {start n x : BlockId} {order stack : List BlockId} {visited : IndexSet}

namespace Discovered

theorem nodup (h : g.Discovered start order) : order.Nodup := by
  induction order with
  | nil => exact .nil
  | cons x rest ih => exact List.nodup_cons.2 ⟨h.2.1, ih h.2.2⟩

theorem reaches (h : g.Discovered start order) (hx : x ∈ order) : g.Reaches start x := by
  induction order generalizing x with
  | nil => simp at hx
  | cons y rest ih =>
    rcases List.mem_cons.1 hx with rfl | hx
    · rcases h.1 with ⟨rfl, -⟩ | ⟨z, hz, hs⟩
      · exact .refl _
      · exact (ih h.2.2 hz).step hs
    · exact ih h.2.2 hx

theorem getLast?_eq (h : g.Discovered start order) (hne : order ≠ []) :
    order.getLast? = some start := by
  induction order with
  | nil => exact absurd rfl hne
  | cons x rest ih =>
    cases rest with
    | nil =>
      rcases h.1 with ⟨rfl, -⟩ | ⟨z, hz, -⟩
      · rfl
      · simp at hz
    | cons y rest =>
      rw [List.getLast?_cons_cons]
      exact ih h.2.2 (by simp)

theorem exists_pred {post pre : List BlockId} (h : g.Discovered start (post ++ x :: pre))
    (hne : pre ≠ []) : ∃ y ∈ pre, x ∈ g.successors y := by
  induction post with
  | nil =>
    rcases h.1 with ⟨-, hnil⟩ | hy
    · exact absurd hnil hne
    · exact hy
  | cons z post ih => exact ih h.2.2

end Discovered

/-- The edges that a walk may still follow: those of the nodes that it has not entered. -/
def pendingEdges (g : FlowGraph) (start : BlockId) (order : List BlockId) : Nat :=
  g.nodes.foldr (fun n k => (if order.contains n then 0 else (g.successors n).length) + k)
    (if order.contains start then 0 else (g.successors start).length)

theorem pendingEdges_nil (g : FlowGraph) (start : BlockId) :
    g.pendingEdges start [] = g.edgeBound start := by
  simp [pendingEdges, edgeBound]

theorem foldr_pending_cons (u : BlockId → Nat) (ns order : List BlockId) (n : BlockId) {k k' : Nat}
    (hk : k' ≤ k) :
    ns.foldr (fun m t => (if m ∈ n :: order then 0 else u m) + t) k' ≤
      ns.foldr (fun m t => (if m ∈ order then 0 else u m) + t) k := by
  induction ns with
  | nil => exact hk
  | cons m ns ih =>
    rw [List.foldr_cons, List.foldr_cons]
    have hle : (if m ∈ n :: order then 0 else u m) ≤ if m ∈ order then 0 else u m := by
      by_cases hm : m ∈ order
      · rw [if_pos (List.mem_cons_of_mem _ hm), if_pos hm]
      · rw [if_neg hm]
        split <;> omega
    omega

theorem foldr_pending_cons_mem (u : BlockId → Nat) {ns order : List BlockId} {n : BlockId}
    {k k' : Nat} (hk : k' ≤ k) (hn : n ∈ ns) (hno : n ∉ order) :
    ns.foldr (fun m t => (if m ∈ n :: order then 0 else u m) + t) k' + u n ≤
      ns.foldr (fun m t => (if m ∈ order then 0 else u m) + t) k := by
  induction ns with
  | nil => simp at hn
  | cons m ns ih =>
    rw [List.foldr_cons, List.foldr_cons]
    by_cases hmn : m = n
    · have hle := foldr_pending_cons u ns order n hk
      subst hmn
      rw [if_pos List.mem_cons_self, if_neg hno]
      omega
    · have hle := ih ((List.mem_cons.1 hn).resolve_left (Ne.symm hmn))
      by_cases hm : m ∈ order
      · rw [if_pos (List.mem_cons_of_mem _ hm), if_pos hm]
        omega
      · have hm' : m ∉ n :: order := by simp [hmn, hm]
        rw [if_neg hm', if_neg hm]
        omega

theorem mem_nodes : n ∈ g.nodes ↔ n.index < g.size := by
  simp only [nodes, List.mem_map, List.mem_range]
  exact ⟨fun ⟨i, hi, he⟩ => he ▸ hi, fun h => ⟨n.index, h, rfl⟩⟩

theorem pendingEdges_cons (hn : n = start ∨ n.index < g.size) (hno : n ∉ order) :
    g.pendingEdges start (n :: order) + (g.successors n).length ≤ g.pendingEdges start order := by
  have hk : (if start ∈ n :: order then 0 else (g.successors start).length) ≤
      if start ∈ order then 0 else (g.successors start).length := by
    by_cases h : start ∈ order
    · simp [h]
    · simp only [h, if_false]
      split <;> omega
  simp only [pendingEdges, List.contains_iff_mem]
  by_cases hin : n ∈ g.nodes
  · exact foldr_pending_cons_mem _ hk hin hno
  · -- Only the start can lie past the size, and its edges stand at the end of the sum.
    obtain rfl : n = start := hn.resolve_right fun h => hin (mem_nodes.2 h)
    have shift : ∀ (ns : List BlockId) (u : BlockId → Nat) (k l : Nat),
        ns.foldr (fun m t => u m + t) (k + l) = ns.foldr (fun m t => u m + t) k + l := by
      intro ns u k l
      induction ns with
      | nil => rfl
      | cons m ns ih => simp only [List.foldr_cons, ih, Nat.add_assoc]
    simp only [List.mem_cons_self, if_true, hno, if_false]
    rw [← shift, Nat.zero_add]
    exact foldr_pending_cons _ _ _ _ (Nat.le_refl _)

/-- What holds between two steps of the stack walk. -/
structure WalkInv (g : FlowGraph) (start : BlockId) (stack : List BlockId) (visited : IndexSet)
    (order : List BlockId) : Prop where
  visited_iff : ∀ x : BlockId, visited.contains x.index = true ↔ x ∈ order
  discovered : g.Discovered start order
  source : ∀ x ∈ stack, x = start ∨ ∃ y ∈ order, x ∈ g.successors y
  closed : ∀ y ∈ order, ∀ s ∈ g.successors y, s ∈ order ∨ s ∈ stack
  started : start ∈ order ∨ start ∈ stack

namespace WalkInv

theorem init (g : FlowGraph) (start : BlockId) :
    g.WalkInv start [start] (.withCapacity g.size) [] where
  visited_iff x := by simp
  discovered := trivial
  source x hx := .inl (List.mem_singleton.1 hx)
  closed y hy := by simp at hy
  started := .inr (by simp)

theorem skip (h : g.WalkInv start (n :: stack) visited order) (hn : n ∈ order) :
    g.WalkInv start stack visited order where
  visited_iff := h.visited_iff
  discovered := h.discovered
  source x hx := h.source x (List.mem_cons_of_mem _ hx)
  closed y hy s hs := by
    rcases h.closed y hy s hs with h' | h'
    · exact .inl h'
    · rcases List.mem_cons.1 h' with rfl | h'
      · exact .inl hn
      · exact .inr h'
  started := by
    rcases h.started with h' | h'
    · exact .inl h'
    · rcases List.mem_cons.1 h' with rfl | h'
      · exact .inl hn
      · exact .inr h'

theorem enter (h : g.WalkInv start (n :: stack) visited order) (hn : n ∉ order) :
    g.WalkInv start (g.freshSuccessors (visited.insert n.index) n ++ stack)
      (visited.insert n.index) (n :: order) := by
  have visited_iff : ∀ x : BlockId,
      (visited.insert n.index).contains x.index = true ↔ x ∈ n :: order := by
    intro x
    rw [IndexSet.contains_insert_index, h.visited_iff, List.mem_cons]
  refine ⟨visited_iff, ⟨?_, hn, h.discovered⟩, ?_, ?_, ?_⟩
  · rcases h.source n List.mem_cons_self with rfl | hy
    · -- The start stands first in any list of discovered nodes, so it is new only in an empty one.
      by_cases hnil : order = []
      · exact .inl ⟨rfl, hnil⟩
      · exact absurd (List.mem_of_getLast? (h.discovered.getLast?_eq hnil)) hn
    · exact .inr hy
  · intro x hx
    rcases List.mem_append.1 hx with hx | hx
    · exact .inr ⟨n, List.mem_cons_self, (List.mem_filter.1 hx).1⟩
    · rcases h.source x (List.mem_cons_of_mem _ hx) with rfl | ⟨y, hy, hs⟩
      · exact .inl rfl
      · exact .inr ⟨y, List.mem_cons_of_mem _ hy, hs⟩
  · intro y hy s hs
    by_cases hmem : s ∈ n :: order
    · exact .inl hmem
    · refine .inr (List.mem_append.2 ?_)
      rcases List.mem_cons.1 hy with rfl | hy
      · refine .inl (List.mem_filter.2 ⟨hs, ?_⟩)
        rw [Bool.not_eq_true', ← Bool.not_eq_true, visited_iff]
        exact hmem
      · rcases h.closed y hy s hs with h' | h'
        · exact absurd (List.mem_cons_of_mem _ h') hmem
        · rcases List.mem_cons.1 h' with rfl | h'
          · exact absurd List.mem_cons_self hmem
          · exact .inr h'
  · rcases h.started with h' | h'
    · exact .inl (List.mem_cons_of_mem _ h')
    · rcases List.mem_cons.1 h' with rfl | h'
      · exact .inl List.mem_cons_self
      · exact .inr (List.mem_append_right _ h')

end WalkInv

/-- With enough fuel the walk ends with an empty stack. -/
theorem preorderLoop_inv (below : ∀ n, ∀ s ∈ g.successors n, s.index < g.size) {fuel : Nat}
    (h : g.WalkInv start stack visited order)
    (hfuel : stack.length + g.pendingEdges start order < fuel) :
    ∃ visited', g.WalkInv start [] visited' (g.preorderLoop fuel stack visited order) := by
  induction fuel generalizing stack visited order with
  | zero => omega
  | succ fuel ih =>
    cases stack with
    | nil => exact ⟨visited, h⟩
    | cons n stack =>
      rw [List.length_cons] at hfuel
      unfold preorderLoop
      by_cases hv : visited.contains n.index = true
      · rw [if_pos hv]
        exact ih (h.skip ((h.visited_iff n).1 hv)) (by omega)
      · have hn : n ∉ order := fun hn => hv ((h.visited_iff n).2 hn)
        have hin : n = start ∨ n.index < g.size := by
          rcases h.source n List.mem_cons_self with rfl | ⟨y, -, hs⟩
          · exact .inl rfl
          · exact .inr (below y n hs)
        have hpend := pendingEdges_cons hin hn
        have hlen : (g.freshSuccessors (visited.insert n.index) n).length ≤
            (g.successors n).length := List.length_filter_le _ _
        rw [if_neg hv]
        refine ih (h.enter hn) ?_
        rw [List.length_append]
        omega

theorem preorder_inv (below : ∀ n, ∀ s ∈ g.successors n, s.index < g.size) (start : BlockId) :
    ∃ visited, g.WalkInv start [] visited (g.preorder start).reverse := by
  rw [preorder, List.reverse_reverse]
  refine preorderLoop_inv below (WalkInv.init g start) ?_
  rw [pendingEdges_nil, List.length_singleton]
  omega

section Preorder

variable (below : ∀ n, ∀ s ∈ g.successors n, s.index < g.size)
include below

theorem preorder_nodup (start : BlockId) : (g.preorder start).Nodup := by
  obtain ⟨_, h⟩ := preorder_inv below start
  exact List.nodup_reverse.1 h.discovered.nodup

theorem mem_preorder (start x : BlockId) : x ∈ g.preorder start ↔ g.Reaches start x := by
  obtain ⟨_, h⟩ := preorder_inv below start
  refine ⟨fun hx => h.discovered.reaches (List.mem_reverse.2 hx), fun hx => ?_⟩
  have hstart : start ∈ (g.preorder start).reverse :=
    h.started.resolve_right List.not_mem_nil
  refine List.mem_reverse.1 (hx.induction_on hstart ?_)
  intro b c _ hb hc
  exact (h.closed b hb c hc).resolve_right List.not_mem_nil

theorem preorder_head? (start : BlockId) : (g.preorder start).head? = some start := by
  obtain ⟨_, h⟩ := preorder_inv below start
  rw [← List.getLast?_reverse]
  refine h.discovered.getLast?_eq ?_
  exact List.ne_nil_of_mem (h.started.resolve_right List.not_mem_nil)

theorem preorder_eq_cons (start : BlockId) :
    g.preorder start = start :: (g.preorder start).drop 1 := by
  rw [List.drop_one]
  exact (List.cons_head?_tail (preorder_head? below start)).symm

theorem preorder_exists_pred {start : BlockId} {pre post : List BlockId}
    (hsplit : g.preorder start = pre ++ x :: post) (hne : pre ≠ []) :
    ∃ y ∈ pre, x ∈ g.successors y := by
  obtain ⟨_, h⟩ := preorder_inv below start
  have hd := h.discovered
  rw [hsplit, List.reverse_append, List.reverse_cons, List.append_assoc,
    List.singleton_append] at hd
  obtain ⟨y, hy, hs⟩ := hd.exists_pred (by simpa using hne)
  exact ⟨y, List.mem_reverse.1 hy, hs⟩

end Preorder

end Midend.FlowGraph
