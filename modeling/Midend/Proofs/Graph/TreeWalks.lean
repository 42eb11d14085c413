import Midend.Proofs.Checked
import Midend.Proofs.Graph.DepthFirst
import Midend.Proofs.Graph.Frontier

namespace Midend

open FlowGraph (Visit)

/-- A stack of things that each add their own list to the state adds these lists in turn. -/
theorem Drains.of_forall {α β γ : Type} {step : α → List γ → List α × List γ} (push : β → α)
    (listed : β → List γ) {bs : List β}
    (h : ∀ b ∈ bs, ∀ out, ∃ k, Drains step k [push b] out ((listed b).reverse ++ out))
    (out : List γ) :
    ∃ k, Drains step k (bs.map push) out ((bs.flatMap listed).reverse ++ out) := by
  induction bs generalizing out with
  | nil => exact ⟨0, .done out⟩
  | cons b bs ih =>
    obtain ⟨hb, hbs⟩ := List.forall_mem_cons.1 h
    obtain ⟨j, hfirst⟩ := hb out
    obtain ⟨k, hrest⟩ := ih hbs ((listed b).reverse ++ out)
    refine ⟨j + k, ?_⟩
    rw [List.flatMap_cons, List.reverse_append, List.append_assoc]
    exact hfirst.append hrest

namespace DominatorTree

def downStep (t : DominatorTree) (n : BlockId) (out : List BlockId) :
    List BlockId × List BlockId :=
  (t.children n, n :: out)

def upStep (t : DominatorTree) : Visit → List BlockId → List Visit × List BlockId
  | .leave n, out => ([], n :: out)
  | .enter n, out => ((t.children n).map .enter ++ [.leave n], out)

namespace IsFor

variable {t : DominatorTree} {g : FlowGraph} {a b c n : BlockId} {fuel : Nat}

/-- A child comes later in the preorder than its parent, and has less of it to come. -/
theorem place_child (hg : g.Consistent) (h : t.IsFor g) (hc : c ∈ t.children n) :
    g.place t.entry n < g.place t.entry c ∧ g.place t.entry c ≤ t.table.size := by
  have hidom := (h.mem_children hg).1 hc
  exact ⟨h.place_lt c n hidom, h.place_le c (h.idom_reaches c n hidom).1⟩

theorem children_eq_nil (hg : g.Consistent) (h : t.IsFor g)
    (hn : t.table.size ≤ g.place t.entry n) : t.children n = [] := by
  refine List.eq_nil_iff_forall_not_mem.2 fun c hc => ?_
  obtain ⟨hlt, hle⟩ := h.place_child hg hc
  omega

/-- With fuel for the rest of the preorder, the bounded walk is the walk to the empty stack. -/
theorem drains_walkDown (hg : g.Consistent) (h : t.IsFor g)
    (hfuel : t.table.size ≤ fuel + g.place t.entry n) (out : List BlockId) :
    ∃ k, Drains t.downStep k [n] out ((t.walkDown fuel n).reverse ++ out) := by
  induction fuel generalizing n out with
  | zero =>
    refine ⟨1, .pop ?_⟩
    rw [downStep, h.children_eq_nil hg (by omega)]
    exact .done _
  | succ fuel ih =>
    have hchild : ∀ c ∈ t.children n, ∀ out,
        ∃ k, Drains t.downStep k [id c] out ((t.walkDown fuel c).reverse ++ out) := by
      intro c hc
      obtain ⟨hlt, -⟩ := h.place_child hg hc
      have hless : t.table.size ≤ fuel + g.place t.entry c := by omega
      exact ih hless
    obtain ⟨k, hrun⟩ := Drains.of_forall id (t.walkDown fuel) hchild (n :: out)
    refine ⟨k + 1, .pop ?_⟩
    rw [walkDown, List.reverse_cons, List.append_assoc, List.singleton_append]
    rw [List.map_id] at hrun
    simpa only [downStep, List.append_nil] using hrun

theorem drains_walkUp (hg : g.Consistent) (h : t.IsFor g)
    (hfuel : t.table.size ≤ fuel + g.place t.entry n) (out : List BlockId) :
    ∃ k, Drains t.upStep k [.enter n] out ((t.walkUp fuel n).reverse ++ out) := by
  have hleave : ∀ out, Drains t.upStep 1 [.leave n] out (n :: out) := fun out => .pop (.done _)
  induction fuel generalizing n out with
  | zero =>
    have hnil := h.children_eq_nil hg (n := n) (by omega)
    refine ⟨1 + 1, .pop ?_⟩
    rw [upStep, hnil]
    exact hleave out
  | succ fuel ih =>
    have hchild : ∀ c ∈ t.children n, ∀ out,
        ∃ k, Drains t.upStep k [.enter c] out ((t.walkUp fuel c).reverse ++ out) := by
      intro c hc out
      obtain ⟨hlt, -⟩ := h.place_child hg hc
      exact ih (by omega) out fun out => .pop (.done _)
    obtain ⟨k, hrun⟩ := Drains.of_forall Visit.enter (t.walkUp fuel) hchild out
    refine ⟨k + 1 + 1, .pop ?_⟩
    rw [walkUp, List.reverse_append, List.reverse_singleton, List.append_assoc,
      List.singleton_append]
    simpa only [upStep, List.append_nil] using hrun.append (hleave _)

theorem exists_walkDown_part (hg : g.Consistent) (h : t.IsFor g) (ha : t.table.Above a n)
    (hfuel : t.table.size ≤ fuel + g.place t.entry n) :
    ∃ pre fuel' post, t.walkDown fuel n = pre ++ t.walkDown fuel' a ++ post ∧
      t.table.size ≤ fuel' + g.place t.entry a := by
  induction fuel generalizing n with
  | zero =>
    rcases Relation.ReflTransGen.cases_tail ha with rfl | ⟨c, -, hc⟩
    · exact ⟨[], 0, [], by simp, hfuel⟩
    · have hmem := (h.mem_children hg).2 hc
      rw [h.children_eq_nil hg (by omega)] at hmem
      exact absurd hmem List.not_mem_nil
  | succ fuel ih =>
    rcases Relation.ReflTransGen.cases_tail ha with rfl | ⟨c, hac, hc⟩
    · exact ⟨[], fuel + 1, [], by simp, hfuel⟩
    · have hmem := (h.mem_children hg).2 hc
      obtain ⟨hlt, -⟩ := h.place_child hg hmem
      obtain ⟨pre, fuel', post, hpart, hfuel'⟩ := ih hac (by omega)
      obtain ⟨before, after, hsplit⟩ := List.append_of_mem hmem
      refine ⟨n :: before.flatMap (t.walkDown fuel) ++ pre, fuel',
        post ++ after.flatMap (t.walkDown fuel), ?_, hfuel'⟩
      rw [walkDown, hsplit, List.flatMap_append, List.flatMap_cons, hpart]
      simp only [List.cons_append, List.append_assoc]

theorem mem_walkDown_iff (hg : g.Consistent) (h : t.IsFor g) (ha : g.Reaches t.entry a)
    (hfuel : t.table.size ≤ fuel + g.place t.entry a) :
    b ∈ t.walkDown fuel a ↔ g.Dominates t.entry a b := by
  rw [(walkDown_perm t fuel a).mem_iff]
  constructor
  · intro hb
    have habove := h.above_of_mem_walkUp hg hb
    have hreach : g.Reaches t.entry b := by
      rcases habove.cases_idom with rfl | ⟨d, hd, -⟩
      · exact ha
      · exact (h.idom_reaches b d hd).1
    exact (h.above_iff b a hreach).1 habove
  · intro hab
    have hle := h.place_le b hab.reaches
    exact h.mem_walkUp hg ((h.above_iff b a hab.reaches).2 hab) (by omega)

/-- What `a` dominates is one run of the tree's preorder, which `a` begins. -/
theorem exists_run (hg : g.Consistent) (h : t.IsFor g) (ha : g.Reaches t.entry a) :
    ∃ pre below post, t.treePreorder = pre ++ a :: below ++ post ∧
      ∀ b, b ∈ a :: below ↔ g.Dominates t.entry a b := by
  have hentry : t.table.Above a t.entry := (h.above_iff a t.entry ha).2 (.root ha)
  obtain ⟨pre, fuel, post, hpart, hfuel⟩ :=
    h.exists_walkDown_part hg hentry (Nat.le_add_right t.table.size _)
  obtain ⟨below, hbelow⟩ : ∃ below, t.walkDown fuel a = a :: below := by
    cases fuel <;> exact ⟨_, rfl⟩
  refine ⟨pre, below, post, hbelow ▸ hpart, fun b => ?_⟩
  rw [← hbelow]
  exact h.mem_walkDown_iff hg ha hfuel

theorem preorder_before (hg : g.Consistent) (h : t.IsFor g)
    (hab : g.StrictlyDominates t.entry a b) : [a, b].Sublist t.treePreorder := by
  obtain ⟨pre, below, post, hsplit, hrun⟩ := h.exists_run hg hab.2.reaches_left
  have hb : b ∈ below := (List.mem_cons.1 ((hrun b).2 hab.2)).resolve_left hab.1.symm
  rw [hsplit]
  have hhead : [a, b].Sublist (a :: below) := (List.singleton_sublist.2 hb).cons_cons a
  exact (hhead.trans (List.sublist_append_right pre _)).trans (List.sublist_append_left _ post)

theorem postorder_before (hg : g.Consistent) (h : t.IsFor g)
    (hab : g.StrictlyDominates t.entry a b) : [b, a].Sublist t.treePostorder := by
  obtain ⟨pre, post, hsplit⟩ := List.append_of_mem ((h.mem_treePostorder hg).2 hab.2.reaches_left)
  have hb : b ∈ pre ++ a :: post := hsplit ▸ (h.mem_treePostorder hg).2 hab.2.reaches
  have hafter : ∀ z ∈ post, t.table.Above z a → z = a := by
    have hpair : (pre ++ a :: post).Pairwise fun x z => t.table.Above z x → z = x :=
      hsplit ▸ h.walkUp_pairwise hg t.table.size t.entry
    exact (List.pairwise_cons.1 (List.pairwise_append.1 hpair).2.1).1
  rcases List.mem_append.1 hb with hb | hb
  · rw [hsplit]
    exact (List.singleton_sublist.2 hb).append (List.singleton_sublist.2 List.mem_cons_self)
  · have hba : b = a := (List.mem_cons.1 hb).elim id fun hb =>
      hafter b hb ((h.above_iff b a hab.2.reaches).2 hab.2)
    exact absurd hba.symm hab.1

end IsFor

end DominatorTree

namespace FlowGraph

/-- The lists of children hold each reachable node but the entry in exactly one place, the list of
its immediate dominator. Both walks of the tree end with an empty stack and list each reachable node
once; a node comes before those that it strictly dominates in one of them and after them in the
other; and parents first, what a node dominates comes in one run from that node on. -/
theorem dominatorTree_walks (g : FlowGraph) (hg : g.Consistent) (entry : BlockId) (limit : Nat)
    (t : DominatorTree) (h : g.dominators entry limit = .ok t) :
    ((∀ n, (t.children n).Nodup ∧ ∀ c, c ∈ t.children n ↔ t.idom c = some n) ∧
      ∀ c, g.Reaches entry c ∧ c ≠ entry ↔ ∃! n, c ∈ t.children n) ∧
    ((∃ k, Drains t.downStep k [entry] [] t.treePreorder.reverse) ∧
      ∃ k, Drains t.upStep k [.enter entry] [] t.treePostorder.reverse) ∧
    (∀ walk ∈ [t.treePreorder, t.treePostorder],
      walk.Nodup ∧ ∀ n, n ∈ walk ↔ g.Reaches entry n) ∧
    (∀ a b, g.StrictlyDominates entry a b →
      [a, b].Sublist t.treePreorder ∧ [b, a].Sublist t.treePostorder) ∧
    ∀ a, g.Reaches entry a → ∃ pre below post, t.treePreorder = pre ++ a :: below ++ post ∧
      ∀ b, b ∈ a :: below ↔ g.Dominates entry a b := by
  obtain ⟨rfl, ht⟩ := dominators_isFor hg h
  -- The table has room for every node, so its size is fuel for a walk from the entry.
  have hfuel : t.table.size ≤ t.table.size + g.place t.entry t.entry := Nat.le_add_right _ _
  refine ⟨⟨fun n => ⟨ht.children_nodup hg n, fun c => ht.mem_children hg⟩, fun c => ?_⟩,
    ⟨?_, ?_⟩, ?_, fun a b hab => ⟨ht.preorder_before hg hab, ht.postorder_before hg hab⟩,
    fun a ha => ht.exists_run hg ha⟩
  · constructor
    · rintro ⟨hc, hne⟩
      obtain ⟨d, hd⟩ := ht.idom_exists c hc hne
      refine ⟨d, (ht.mem_children hg).2 hd, fun n hn => ?_⟩
      exact Option.some.inj (((ht.mem_children hg).1 hn).symm.trans hd)
    · rintro ⟨n, hn, -⟩
      exact ht.idom_reaches c n ((ht.mem_children hg).1 hn)
  · obtain ⟨k, hrun⟩ := ht.drains_walkDown hg hfuel []
    rw [List.append_nil] at hrun
    exact ⟨k, hrun⟩
  · obtain ⟨k, hrun⟩ := ht.drains_walkUp hg hfuel []
    rw [List.append_nil] at hrun
    exact ⟨k, hrun⟩
  · refine List.forall_mem_cons.2 ⟨ht.treePreorder_spec hg, List.forall_mem_singleton.2 ?_⟩
    exact ⟨ht.walkUp_nodup hg _ _, fun n => ht.mem_treePostorder hg⟩

/-- A loop around a branch, with a way out below the join and a node that nothing leads to. -/
def branchingLoop : FlowGraph :=
  ofEdges 7 [(⟨0⟩, ⟨1⟩), (⟨1⟩, ⟨2⟩), (⟨1⟩, ⟨3⟩), (⟨2⟩, ⟨4⟩), (⟨3⟩, ⟨4⟩), (⟨4⟩, ⟨1⟩), (⟨4⟩, ⟨5⟩),
    (⟨6⟩, ⟨5⟩)]

/-- The join and the way out stand together between the arms of the branch. -/
theorem branchingLoop_walks :
    ∃ t, branchingLoop.Consistent ∧ branchingLoop.dominators ⟨0⟩ 8 = .ok t ∧
      t.treePreorder = [⟨0⟩, ⟨1⟩, ⟨2⟩, ⟨4⟩, ⟨5⟩, ⟨3⟩] ∧
      t.treePostorder = [⟨2⟩, ⟨5⟩, ⟨4⟩, ⟨3⟩, ⟨1⟩, ⟨0⟩] ∧
      ∃ pre below post, t.treePreorder = pre ++ ⟨4⟩ :: below ++ post ∧
        ∀ b, b ∈ ⟨4⟩ :: below ↔ branchingLoop.Dominates ⟨0⟩ ⟨4⟩ b := by
  have hg : branchingLoop.Consistent := ofEdges_consistent (by decide)
  have hwalks : (branchingLoop.dominators ⟨0⟩ 8).map
      (fun t => (t.treePreorder, t.treePostorder)) =
        .ok ([⟨0⟩, ⟨1⟩, ⟨2⟩, ⟨4⟩, ⟨5⟩, ⟨3⟩], [⟨2⟩, ⟨5⟩, ⟨4⟩, ⟨3⟩, ⟨1⟩, ⟨0⟩]) := by
    decide +kernel
  obtain ⟨t, ht⟩ : ∃ t, branchingLoop.dominators ⟨0⟩ 8 = .ok t := isOk_iff.1 (by decide +kernel)
  rw [ht] at hwalks
  obtain ⟨hpre, hpost⟩ := Prod.mk.inj (Except.ok.inj hwalks)
  obtain ⟨-, -, hlists, -, hrun⟩ := dominatorTree_walks branchingLoop hg ⟨0⟩ 8 t ht
  have hreach : branchingLoop.Reaches ⟨0⟩ ⟨4⟩ :=
    ((hlists _ List.mem_cons_self).2 ⟨4⟩).1 (by simp [hpre])
  exact ⟨t, hg, ht, hpre, hpost, hrun ⟨4⟩ hreach⟩

end FlowGraph

end Midend
