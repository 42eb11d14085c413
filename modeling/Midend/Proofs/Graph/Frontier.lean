import Midend.Graph.Frontier
import Midend.Proofs.Graph.Settling

namespace Midend

namespace DominatorTree.IsFor

variable {t : DominatorTree} {g : FlowGraph} {a b c n q y : BlockId}

theorem mem_children (hg : g.Consistent) (h : t.IsFor g) : c ∈ t.children n ↔ t.idom c = some n := by
  have horder : t.order = t.entry :: t.order.drop 1 := by
    rw [h.order_eq]
    exact FlowGraph.preorder_eq_cons hg.below t.entry
  rw [children, List.mem_filter, decide_eq_true_eq, and_iff_right_iff_imp]
  intro hc
  obtain ⟨hr, hne⟩ := h.idom_reaches c n hc
  have hmem := (h.mem_order_iff hg).2 hr
  rw [horder] at hmem
  exact (List.mem_cons.1 hmem).resolve_left hne

theorem children_nodup (hg : g.Consistent) (h : t.IsFor g) (n : BlockId) :
    (t.children n).Nodup := by
  have hnd : t.order.Nodup := h.order_eq ▸ FlowGraph.preorder_nodup hg.below t.entry
  exact ((List.drop_sublist 1 t.order).nodup hnd).filter _

theorem eq_of_above (h : t.IsFor g) (hab : t.table.Above a b) (hba : t.table.Above b a) :
    a = b := by
  rcases hab.cases_idom with rfl | ⟨d, hd, hdb⟩
  · rfl
  · have h1 := h.place_lt a d hd
    have h2 := hdb.rank_le h.place_lt
    have h3 := hba.rank_le h.place_lt
    omega

theorem child_unique (h : t.IsFor g) (hb : t.idom b = some n) (hc : t.idom c = some n)
    (hyb : t.table.Above y b) (hyc : t.table.Above y c) : b = c := by
  have hside : ∀ {b c : BlockId}, t.idom b = some n → t.idom c = some n → t.table.Above b c →
      b = c := by
    intro b c hb hc hbc
    rcases hbc.cases_idom with rfl | ⟨d, hd, hdc⟩
    · rfl
    · obtain rfl := Option.some.inj (hb.symm.trans hd)
      have h1 := h.place_lt c n hc
      have h2 := hdc.rank_le h.place_lt
      omega
  rcases hyb.total hyc with hbc | hcb
  · exact hside hb hc hbc
  · exact (hside hc hb hcb).symm

theorem above_of_mem_walkUp (hg : g.Consistent) (h : t.IsFor g) {fuel : Nat}
    (hy : y ∈ t.walkUp fuel n) : t.table.Above y n := by
  induction fuel generalizing n with
  | zero =>
    obtain rfl := List.mem_singleton.1 hy
    exact .refl _
  | succ fuel ih =>
    rcases List.mem_append.1 hy with hy | hy
    · obtain ⟨c, hc, hyc⟩ := List.mem_flatMap.1 hy
      exact (ih hyc).trans (.link ((h.mem_children hg).1 hc))
    · obtain rfl := List.mem_singleton.1 hy
      exact .refl _

theorem mem_walkUp (hg : g.Consistent) (h : t.IsFor g) {fuel : Nat} (hy : t.table.Above y n)
    (hfuel : g.place t.entry y ≤ fuel + g.place t.entry n) : y ∈ t.walkUp fuel n := by
  induction fuel generalizing n with
  | zero =>
    have hyn : y = n := by
      rcases hy.cases_idom with rfl | ⟨d, hd, hdn⟩
      · rfl
      · have h1 := h.place_lt y d hd
        have h2 := hdn.rank_le h.place_lt
        omega
    exact hyn ▸ List.mem_singleton_self _
  | succ fuel ih =>
    rcases Relation.ReflTransGen.cases_tail hy with rfl | ⟨c, hyc, hcn⟩
    · exact List.mem_append_right _ (List.mem_singleton_self _)
    · have hlt := h.place_lt c n hcn
      refine List.mem_append_left _ (List.mem_flatMap.2 ⟨c, (h.mem_children hg).2 hcn, ?_⟩)
      exact ih hyc (by omega)

/-- In a walk that lists children first nothing comes after a node that is above it. -/
theorem walkUp_pairwise (hg : g.Consistent) (h : t.IsFor g) (fuel : Nat) (n : BlockId) :
    (t.walkUp fuel n).Pairwise fun x z => t.table.Above z x → z = x := by
  induction fuel generalizing n with
  | zero => exact List.pairwise_singleton _ _
  | succ fuel ih =>
    refine List.pairwise_append.2 ⟨?_, List.pairwise_singleton _ _, fun x hx z hz hzx => ?_⟩
    · rw [List.pairwise_flatMap]
      refine ⟨fun c _ => ih c, ?_⟩
      have hchildren : ∀ c ∈ t.children n, t.idom c = some n := fun c hc => (h.mem_children hg).1 hc
      refine (h.children_nodup hg n).imp_of_mem fun {b c} hb hc hne x hx z hz hzx => ?_
      have hxb := h.above_of_mem_walkUp hg hx
      have hzc := h.above_of_mem_walkUp hg hz
      exact absurd (h.child_unique (hchildren b hb) (hchildren c hc) (hzx.trans hxb) hzc) hne
    · obtain rfl := List.mem_singleton.1 hz
      obtain ⟨c, hc, hxc⟩ := List.mem_flatMap.1 hx
      exact h.eq_of_above hzx
        ((h.above_of_mem_walkUp hg hxc).trans (.link ((h.mem_children hg).1 hc)))

theorem walkUp_nodup (hg : g.Consistent) (h : t.IsFor g) (fuel : Nat) (n : BlockId) :
    (t.walkUp fuel n).Nodup := by
  induction fuel generalizing n with
  | zero => exact List.nodup_singleton n
  | succ fuel ih =>
    have hchildren : ∀ c ∈ t.children n, t.idom c = some n := fun c hc => (h.mem_children hg).1 hc
    refine List.nodup_append'.2 ⟨List.nodup_flatMap.2 ⟨fun c _ => ih c, ?_⟩,
      List.nodup_singleton n, fun x hx hn => ?_⟩
    · refine (h.children_nodup hg n).imp_of_mem fun {b c} hb hc hne x hxb hxc => hne ?_
      exact h.child_unique (hchildren b hb) (hchildren c hc) (h.above_of_mem_walkUp hg hxb)
        (h.above_of_mem_walkUp hg hxc)
    · obtain rfl := List.mem_singleton.1 hn
      obtain ⟨c, hc, hxc⟩ := List.mem_flatMap.1 hx
      have hlt := h.place_lt c x (hchildren c hc)
      have hle := (h.above_of_mem_walkUp hg hxc).rank_le h.place_lt
      omega

theorem mem_treePostorder (hg : g.Consistent) (h : t.IsFor g) :
    n ∈ t.treePostorder ↔ g.Reaches t.entry n := by
  constructor
  · intro hn
    rcases (h.above_of_mem_walkUp hg hn).cases_idom with rfl | ⟨d, hd, -⟩
    · exact .refl _
    · exact (h.idom_reaches n d hd).1
  · intro hn
    refine h.mem_walkUp hg ((h.above_iff n _ hn).2 (.root hn)) ?_
    exact (h.place_le n hn).trans (Nat.le_add_right _ _)

theorem walkDown_perm (t : DominatorTree) (fuel : Nat) (n : BlockId) :
    (t.walkDown fuel n).Perm (t.walkUp fuel n) := by
  induction fuel generalizing n with
  | zero => exact .refl _
  | succ fuel ih =>
    exact ((List.Perm.flatMap_left _ fun c _ => ih c).cons n).trans
      (List.perm_append_singleton n _).symm

theorem treePreorder_spec (hg : g.Consistent) (h : t.IsFor g) :
    t.treePreorder.Nodup ∧ ∀ n, n ∈ t.treePreorder ↔ g.Reaches t.entry n := by
  have hperm := walkDown_perm t t.table.size t.entry
  exact ⟨hperm.nodup_iff.2 (h.walkUp_nodup hg _ _),
    fun n => hperm.mem_iff.trans (h.mem_treePostorder hg)⟩

end DominatorTree.IsFor

namespace FlowGraph

variable {t : DominatorTree} {g : FlowGraph} {b c n q y : BlockId}

theorem of_setIfInBounds (f : Frontiers) (n x : BlockId) (s : OrderedSet BlockId)
    (hn : n.index < f.size) :
    Frontiers.of (f.setIfInBounds n.index s) x = if x = n then s else f.of x := by
  simp only [Frontiers.of, Array.getD_eq_getD_getElem?, Array.getElem?_setIfInBounds]
  by_cases hx : x = n
  · subst hx
    simp [hn]
  · have hne : n.index ≠ x.index := fun he => hx (Handle.ext he.symm)
    simp [hx, hne]

theorem of_foldl_frontierOf (t : DominatorTree) {ns : List BlockId} {f : Frontiers}
    (hns : ∀ n ∈ ns, n.index < f.size) {x : BlockId} (hx : x ∉ ns) :
    Frontiers.of (ns.foldl (fun f n => f.setIfInBounds n.index (g.frontierOf t f n)) f) x =
      f.of x := by
  induction ns generalizing f with
  | nil => rfl
  | cons n ns ih =>
    obtain ⟨hn, hns⟩ := List.forall_mem_cons.1 hns
    obtain ⟨hxn, hx⟩ := not_or.1 (fun h => hx (List.mem_cons.2 h))
    rw [List.foldl_cons, ih (by simpa using hns) hx, of_setIfInBounds f n x _ hn, if_neg hxn]

theorem size_frontiers (g : FlowGraph) (t : DominatorTree) :
    (g.frontiers t).size = max g.size t.table.size := by
  refine List.foldlRecOn (motive := fun f => Array.size f = _) t.treePostorder _ ?_ fun f hf n _ => ?_
  · exact Array.size_replicate
  · rw [Array.size_setIfInBounds, hf]

theorem index_lt_of_mem_frontiers (hg : g.Consistent) (hb : b ∈ (g.frontiers t).of n) :
    b.index < g.size := by
  refine List.foldlRecOn (motive := fun f => ∀ n b, b ∈ Frontiers.of f n → b.index < g.size)
    t.treePostorder _ ?_ (fun f hf x _ n b hb => ?_) n b hb
  · intro n b hb
    simp only [Frontiers.of, Array.getD_eq_getD_getElem?, Array.getElem?_replicate] at hb
    split at hb <;> exact absurd hb (OrderedSet.notMem_empty b)
  · by_cases hx : x.index < f.size
    · rw [of_setIfInBounds f x n _ hx] at hb
      split at hb
      · rw [frontierOf, OrderedSet.mem_ofList, List.mem_filter, List.mem_append,
          List.mem_flatMap] at hb
        rcases hb.1 with hb | ⟨c, -, hb⟩
        · exact hg.below x b hb
        · exact hf c b hb
      · exact hf n b hb
    · rw [Array.setIfInBounds_eq_of_size_le (Nat.le_of_not_lt hx)] at hb
      exact hf n b hb

theorem exists_last {ns : List BlockId} (h : n ∈ ns) :
    ∃ pre post, ns = pre ++ n :: post ∧ n ∉ post := by
  obtain ⟨as, bs, hsplit, hn⟩ := List.eq_append_cons_of_mem (List.mem_reverse.2 h)
  refine ⟨bs.reverse, as.reverse, ?_, by simpa using hn⟩
  rw [← List.reverse_reverse ns, hsplit]
  simp

section Equation

variable (hg : g.Consistent) (ht : t.IsFor g)
  (hsize : ∀ x, g.Reaches t.entry x → x.index < max g.size t.table.size)
include hg ht hsize

/-- The walk gives each node what its own step gives it from the frontiers of all nodes: its children
come before it, and their frontiers do not change any more. -/
theorem frontiers_of_eq (hn : g.Reaches t.entry n) :
    (g.frontiers t).of n = g.frontierOf t (g.frontiers t) n := by
  have hpair := ht.walkUp_pairwise hg t.table.size t.entry
  obtain ⟨pre, post, hsplit, hpost⟩ := exists_last ((ht.mem_treePostorder hg).2 hn)
  have hindex : ∀ x ∈ t.treePostorder, x.index < max g.size t.table.size :=
    fun x hx => hsize x ((ht.mem_treePostorder hg).1 hx)
  -- `start` holds the frontiers when it is the turn of `n`.
  obtain ⟨start, hstart⟩ : ∃ start : Frontiers, start = pre.foldl
      (fun f n => f.setIfInBounds n.index (g.frontierOf t f n))
      (Array.replicate (max g.size t.table.size) ∅) := ⟨_, rfl⟩
  have hstartSize : start.size = max g.size t.table.size := by
    rw [hstart]
    refine List.foldlRecOn (motive := fun f => Array.size f = _) pre _ ?_ fun f hf n _ => ?_
    · exact Array.size_replicate
    · rw [Array.size_setIfInBounds, hf]
  have hfinal : g.frontiers t = post.foldl
      (fun f n => f.setIfInBounds n.index (g.frontierOf t f n))
      (start.setIfInBounds n.index (g.frontierOf t start n)) := by
    rw [frontiers, hsplit, List.foldl_append, ← hstart, List.foldl_cons]
  have hpostSize : ∀ x ∈ post,
      x.index < (start.setIfInBounds n.index (g.frontierOf t start n)).size := by
    intro x hx
    rw [Array.size_setIfInBounds, hstartSize]
    exact hindex x (by rw [hsplit]; simp [hx])
  have hnSize : n.index < start.size := hstartSize ▸ hsize n hn
  have hof : ∀ x, x ∉ post → (g.frontiers t).of x =
      if x = n then g.frontierOf t start n else start.of x := by
    intro x hx
    rw [hfinal, of_foldl_frontierOf t hpostSize hx, of_setIfInBounds start n x _ hnSize]
  -- The children have had their turn: what comes after `n` is not below it.
  have hchild : ∀ c ∈ t.children n, start.of c = (g.frontiers t).of c := by
    intro c hc
    have hidom := (ht.mem_children hg).1 hc
    have hlt := ht.place_lt c n hidom
    have hcn : c ≠ n := by
      rintro rfl
      omega
    have hcpost : c ∉ post := by
      intro hmem
      have hafter : ∀ z ∈ post, t.table.Above z n → z = n := by
        have hwalkUp : t.walkUp t.table.size t.entry = pre ++ n :: post := hsplit
        rw [hwalkUp, List.pairwise_append, List.pairwise_cons] at hpair
        exact hpair.2.1.1
      exact hcn (hafter c hmem (.link hidom))
    rw [hof c hcpost, if_neg hcn]
  have hchildren : (t.children n).flatMap (fun c => (start.of c).toList) =
      (t.children n).flatMap fun c => ((g.frontiers t).of c).toList :=
    List.flatMap_congr fun c hc => by rw [hchild c hc]
  rw [hof n hpost, if_pos rfl, frontierOf, frontierOf, hchildren]

/-- The frontier of a node holds what its edges and its children lead to and it does not dominate
immediately. -/
theorem mem_frontiers_of (hn : g.Reaches t.entry n) :
    b ∈ (g.frontiers t).of n ↔
      (b ∈ g.successors n ∨ ∃ c, t.idom c = some n ∧ b ∈ (g.frontiers t).of c) ∧
        t.idom b ≠ some n := by
  rw [frontiers_of_eq hg ht hsize hn, frontierOf, OrderedSet.mem_ofList, List.mem_filter,
    List.mem_append, List.mem_flatMap, decide_eq_true_eq]
  simp only [ht.mem_children hg]
  rfl

theorem frontiers_of_unreachable (hn : ¬ g.Reaches t.entry n) : (g.frontiers t).of n = ∅ := by
  rw [frontiers, of_foldl_frontierOf t]
  · simp only [Frontiers.of, Array.getD_eq_getD_getElem?, Array.getElem?_replicate]
    split <;> rfl
  · intro x hx
    rw [Array.size_replicate]
    exact hsize x ((ht.mem_treePostorder hg).1 hx)
  · exact fun hmem => hn ((ht.mem_treePostorder hg).1 hmem)

/-- An edge that leaves the nodes that `y` strictly dominates leads to the frontier of `y`. -/
theorem mem_frontiers_of_edge (hy : g.Dominates t.entry y q) (hb : b ∈ g.successors q)
    (hyb : ¬ g.StrictlyDominates t.entry y b) : b ∈ (g.frontiers t).of y := by
  have hq : g.Reaches t.entry q := hy.reaches
  have hidom : ∀ z, g.Dominates t.entry y z → t.idom b ≠ some z := by
    intro z hz hbz
    exact hyb (.trans_left hz (ht.idom_spec hbz).1)
  -- From `q` up to `y` each node passes `b` on to its immediate dominator.
  have hup : ∀ z, t.table.Above q z → g.Dominates t.entry y z → b ∈ (g.frontiers t).of z := by
    intro z hz
    induction hz with
    | refl => exact fun hd => (mem_frontiers_of hg ht hsize hq).2 ⟨.inl hb, hidom q hd⟩
    | @tail c z hc hcz ih =>
      intro hd
      have hreach := (ht.idom_reaches c z hcz).1
      have hyc : g.Dominates t.entry y c := hd.trans ((ht.above_iff c z hreach).1 (.link hcz))
      exact (mem_frontiers_of hg ht hsize hd.reaches).2 ⟨.inr ⟨c, hcz, ih hyc⟩, hidom z hd⟩
  exact hup y ((ht.above_iff q y hq).2 hy) (.refl hy.reaches_left)

theorem exists_edge_of_mem_frontiers (hy : g.Reaches t.entry y) (hb : b ∈ (g.frontiers t).of y) :
    (∃ q, g.Dominates t.entry y q ∧ b ∈ g.successors q) ∧
      ¬ g.StrictlyDominates t.entry y b := by
  -- The children of `y` come later in the preorder, which has an end.
  induction hk : t.table.size - g.place t.entry y using Nat.strong_induction_on generalizing y with
  | _ k ih =>
    obtain ⟨hfrom, hidom⟩ := (mem_frontiers_of hg ht hsize hy).1 hb
    -- The immediate dominator of `b` cannot be strictly below `y`.
    have hstrict : ∀ q, g.Dominates t.entry y q → b ∈ g.successors q →
        (∀ d, g.StrictlyDominates t.entry d b → g.Dominates t.entry d q →
          g.Dominates t.entry d y) → ¬ g.StrictlyDominates t.entry y b := by
      intro q hyq hbq hlow hyb
      have hne : b ≠ t.entry := by
        rintro rfl
        exact hyb.1 hyb.2.eq_root
      obtain ⟨d, hd⟩ := ht.idom_exists b hyb.2.reaches hne
      obtain ⟨hdb, hnearest⟩ := ht.idom_spec hd
      have hdy := hlow d hdb (hdb.of_step hyq.reaches hbq)
      exact hidom (hd.trans (congrArg some (hdy.antisymm (hnearest y hyb))))
    rcases hfrom with hby | ⟨c, hc, hbc⟩
    · exact ⟨⟨y, .refl hy, hby⟩, hstrict y (.refl hy) hby fun d _ hdy => hdy⟩
    · obtain ⟨hcr, -⟩ := ht.idom_reaches c y hc
      have hlt := ht.place_lt c y hc
      have hle := ht.place_le c hcr
      obtain ⟨⟨q, hcq, hbq⟩, hcb⟩ := ih _ (by omega) hcr hbc rfl
      obtain ⟨hyc, hnearest⟩ := ht.idom_spec hc
      refine ⟨⟨q, hyc.2.trans hcq, hbq⟩, hstrict q (hyc.2.trans hcq) hbq fun d hdb hdq => ?_⟩
      -- Both `c` and `d` dominate `q`, and `c` does not dominate `d`.
      rcases hcq.total hdq with hcd | hdc
      · exact absurd (.trans_left hcd hdb) hcb
      · refine hnearest d ⟨?_, hdc⟩
        rintro rfl
        exact hcb hdb

end Equation

theorem index_lt_of_dominators (hg : g.Consistent) {entry : BlockId} {limit : Nat}
    (h : g.dominators entry limit = .ok t) {x : BlockId} (hx : g.Reaches entry x) :
    x.index < max g.size t.table.size := by
  obtain ⟨s, hs, -, htable⟩ := dominators_underway h
  have hsize := (hs.inv hg).1.size
  rw [htable] at hsize
  obtain ⟨p, hp⟩ := hx
  cases hp with
  | start => omega
  | step _ hx =>
    have := hg.below _ _ hx
    omega

/-- The frontier of `a` is where its dominance ends: the nodes with a reachable predecessor that `a`
dominates, as far as `a` does not strictly dominate the nodes themselves. -/
theorem mem_frontiers_iff_dominance_ends (g : FlowGraph) (hg : g.Consistent) (entry : BlockId)
    (limit : Nat) (t : DominatorTree) (h : g.dominators entry limit = .ok t) :
    (∀ a b, b ∈ (g.frontiers t).of a ↔
      (∃ p ∈ g.predecessors b, g.Reaches entry p ∧ g.Dominates entry a p) ∧
        ¬ g.StrictlyDominates entry a b) ∧
    ∀ a, ¬ g.Reaches entry a → (g.frontiers t).of a = ∅ := by
  have hsize := fun x => index_lt_of_dominators hg h (x := x)
  obtain ⟨rfl, ht⟩ := dominators_isFor hg h
  have hempty : ∀ a, ¬ g.Reaches t.entry a → (g.frontiers t).of a = ∅ := fun a ha =>
    frontiers_of_unreachable hg ht hsize ha
  refine ⟨fun a b => ⟨fun hb => ?_, ?_⟩, hempty⟩
  · have ha : g.Reaches t.entry a := by
      by_contra ha
      rw [hempty a ha] at hb
      exact OrderedSet.notMem_empty b hb
    obtain ⟨⟨q, haq, hbq⟩, hab⟩ := exists_edge_of_mem_frontiers hg ht hsize ha hb
    exact ⟨⟨q, (hg.converse b q).2 hbq, haq.reaches, haq⟩, hab⟩
  · rintro ⟨⟨p, hp, -, ha⟩, hab⟩
    exact mem_frontiers_of_edge hg ht hsize ha ((hg.converse b p).1 hp) hab

/-- A loop through the entry, with a node that loops on its own, an edge given twice and a node that
nothing leads to. -/
def loopThroughEntry : FlowGraph :=
  ofEdges 4 [(⟨0⟩, ⟨1⟩), (⟨0⟩, ⟨1⟩), (⟨1⟩, ⟨1⟩), (⟨1⟩, ⟨2⟩), (⟨2⟩, ⟨0⟩), (⟨3⟩, ⟨2⟩)]

/-- Neither the entry nor a loop of one node strictly dominates itself, so both are on frontiers. -/
theorem loopThroughEntry_frontiers :
    ∃ t, loopThroughEntry.dominators ⟨0⟩ 4 = .ok t ∧
      ((loopThroughEntry.frontiers t).of ⟨0⟩).toList = [⟨0⟩] ∧
      ((loopThroughEntry.frontiers t).of ⟨1⟩).toList = [⟨0⟩, ⟨1⟩] ∧
      (⟨1⟩ ∈ (loopThroughEntry.frontiers t).of ⟨1⟩ ↔
        (∃ p ∈ loopThroughEntry.predecessors ⟨1⟩, loopThroughEntry.Reaches ⟨0⟩ p ∧
          loopThroughEntry.Dominates ⟨0⟩ ⟨1⟩ p) ∧
        ¬ loopThroughEntry.StrictlyDominates ⟨0⟩ ⟨1⟩ ⟨1⟩) := by
  have hg : loopThroughEntry.Consistent := ofEdges_consistent (by decide)
  obtain ⟨t, ht, hentry, hloop⟩ : ∃ t, loopThroughEntry.dominators ⟨0⟩ 4 = .ok t ∧
      ((loopThroughEntry.frontiers t).of ⟨0⟩).toList = [⟨0⟩] ∧
      ((loopThroughEntry.frontiers t).of ⟨1⟩).toList = [⟨0⟩, ⟨1⟩] :=
    ⟨_, rfl, by decide +kernel, by decide +kernel⟩
  exact ⟨t, ht, hentry, hloop,
    (mem_frontiers_iff_dominance_ends loopThroughEntry hg ⟨0⟩ 4 t ht).1 ⟨1⟩ ⟨1⟩⟩

end FlowGraph

end Midend
