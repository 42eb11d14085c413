import Midend.Proofs.Graph.Sweep

namespace Midend

namespace IdomTable

theorem above_congr {t t' : IdomTable} (h : ∀ x, t'.idom x = t.idom x) (n a : BlockId) :
    t'.Above n a ↔ t.Above n a := by
  have he : t'.idom = t.idom := funext h
  simp only [Above, he]

end IdomTable

namespace FlowGraph

variable {g : FlowGraph} {entry n x a b d : BlockId} {t t' : IdomTable} {visited : IndexSet}

theorem foldl_distinct (ps seen : List BlockId) (hseen : seen.Nodup) :
    (ps.foldl (fun seen p => if p ∈ seen then seen else seen ++ [p]) seen).Nodup ∧
      ∀ x, x ∈ ps.foldl (fun seen p => if p ∈ seen then seen else seen ++ [p]) seen ↔
        x ∈ seen ∨ x ∈ ps := by
  induction ps generalizing seen with
  | nil => exact ⟨hseen, by simp⟩
  | cons p ps ih =>
    rw [List.foldl_cons]
    by_cases hp : p ∈ seen
    · obtain ⟨h1, h2⟩ := ih seen hseen
      rw [if_pos hp]
      refine ⟨h1, fun x => ?_⟩
      rw [h2, List.mem_cons]
      exact ⟨fun h => h.imp_right .inr, fun h => h.elim .inl fun h => h.elim (· ▸ .inl hp) .inr⟩
    · have hnd : (seen ++ [p]).Nodup := by
        rw [List.nodup_append]
        refine ⟨hseen, List.nodup_singleton p, fun a ha b hb => ?_⟩
        rintro rfl
        exact hp (List.mem_singleton.1 hb ▸ ha)
      obtain ⟨h1, h2⟩ := ih _ hnd
      rw [if_neg hp]
      refine ⟨h1, fun x => ?_⟩
      rw [h2, List.mem_append, List.mem_singleton, List.mem_cons, or_assoc]

theorem ofEdges_consistent {size : Nat} {edges : List (BlockId × BlockId)}
    (h : ∀ e ∈ edges, e.2.index < size) : (ofEdges size edges).Consistent where
  below n s hs := by
    obtain ⟨e, he, rfl⟩ := List.mem_map.1 hs
    exact h e (List.mem_filter.1 he).1
  converse n p := by
    have hmem := (foldl_distinct ((edges.filter fun e => e.2 = n).map (·.1)) [] .nil).2 p
    refine hmem.trans ?_
    simp [ofEdges]
  distinct n := (foldl_distinct _ [] .nil).1

theorem SweepInv.init (g : FlowGraph) (entry : BlockId) :
    g.SweepInv entry (Array.replicate (max g.size (entry.index + 1)) none)
      ((IndexSet.withCapacity (max g.size (entry.index + 1))).insert entry.index) := by
  have hnone : ∀ x, IdomTable.idom (Array.replicate (max g.size (entry.index + 1)) none) x =
      none := by
    intro x
    simp only [IdomTable.idom, Array.getD_eq_getD_getElem?, Array.getElem?_replicate]
    split <;> rfl
  have hvis : ∀ x : BlockId,
      ((IndexSet.withCapacity (max g.size (entry.index + 1))).insert entry.index).contains
        x.index = true → x = entry := by
    intro x hx
    simpa [Handle.ext_iff] using hx
  refine ⟨Array.size_replicate, by simp, ?_, ?_, ?_, ?_, ?_⟩
  · intro x hx
    rw [hvis x hx]
    exact .refl _
  · intro x hx hne
    exact absurd (hvis x hx) hne
  · intro x d hd
    rw [hnone] at hd
    cases hd
  · intro x a hx ha
    obtain rfl := hvis x hx
    rw [ha.eq_root]
    exact .refl _
  · intro x a hx ha
    obtain rfl := ha.eq_of_idom_none (hnone x)
    exact ⟨_, .start, fun z hz => by rw [List.mem_singleton.1 hz]⟩

/-- In a list of the preorder a node comes after the predecessor by which it was found. -/
theorem exists_earlier_pred (hg : g.Consistent) {pre rest : List BlockId}
    (hsplit : g.preorder entry = pre ++ n :: rest) (hpre : pre ≠ []) :
    n ≠ entry ∧ ∃ y ∈ pre, n ∈ g.successors y ∧ g.place entry y < g.place entry n := by
  have hnd : (pre ++ n :: rest).Nodup := hsplit ▸ preorder_nodup hg.below entry
  have hn : n ∉ pre := by
    intro hn
    exact (List.disjoint_of_nodup_append hnd) hn List.mem_cons_self
  have hentry : entry ∈ pre := by
    have hhead := preorder_head? hg.below entry
    rw [hsplit, List.head?_append_of_ne_nil _ hpre] at hhead
    exact List.mem_of_mem_head? hhead
  obtain ⟨y, hy, hs⟩ := preorder_exists_pred hg.below hsplit hpre
  refine ⟨fun h => hn (h ▸ hentry), y, hy, hs, ?_⟩
  have hlt := List.idxOf_lt_length_of_mem hy
  unfold place
  rw [hsplit, List.idxOf_append_of_mem hy, List.idxOf_append_of_notMem hn, List.idxOf_cons_self]
  omega

/-- One step of a sweep: `n` gets a link to `d`, the lowest common ancestor of those of its
predecessors that have been visited. -/
structure SweepStep (g : FlowGraph) (entry n d : BlockId) (s s' : Sweep) : Prop where
  run : g.sweepNode s n = .ok s'
  idom : ∀ x, s'.table.idom x = if x = n then some d else s.table.idom x
  visited : ∀ x : BlockId, s'.visited.contains x.index = true ↔
    x = n ∨ s.visited.contains x.index = true
  changed : s'.changed = (s.changed || s.table.idom n != some d)
  inv : g.SweepInv entry s'.table s'.visited
  ne_entry : n ≠ entry
  earlier : g.place entry d < g.place entry n
  above : ∀ p, n ∈ g.successors p → s.visited.contains p.index = true → s.table.Above p d
  lowest : ∀ z, (∀ p, n ∈ g.successors p → s.visited.contains p.index = true → s.table.Above p z) →
    s.table.Above d z

theorem exists_sweepStep (hg : g.Consistent) {pre rest : List BlockId}
    (hsplit : g.preorder entry = pre ++ n :: rest) (hpre : pre ≠ []) {s : Sweep}
    (h : g.SweepInv entry s.table s.visited)
    (hvis : ∀ x ∈ pre, s.visited.contains x.index = true) : ∃ d s', g.SweepStep entry n d s s' := by
  obtain ⟨hne, y, hy, hs, hplace⟩ := exists_earlier_pred hg hsplit hpre
  have hreach : g.Reaches entry n :=
    (mem_preorder hg.below entry n).1 (by rw [hsplit]; simp)
  have hsize : n.index < s.table.size := by
    have hlt := hg.below y n hs
    rw [h.size]
    omega
  obtain ⟨d, hd, hup, hlow⟩ := h.candidate_spec hg hs (hvis y hy)
  refine ⟨d, ⟨s.table.setIfInBounds n.index (some d), s.visited.insert n.index,
    s.changed || s.table.idom n != some d⟩, ?_, fun x => IdomTable.idom_setIfInBounds hsize x _,
    fun x => ?_, rfl, h.relink hreach hsize hs (hvis y hy) hplace hup hlow hne, hne, ?_, hup, hlow⟩
  · simp only [sweepNode, hd]
  · exact IndexSet.contains_insert_index
  · exact Nat.lt_of_le_of_lt ((hup y hs (hvis y hy)).rank_le h.rank_lt) hplace

namespace SweepStep

variable {s s' : Sweep}

theorem visited_append {pre : List BlockId} (h : g.SweepStep entry n d s s')
    (hvis : ∀ x ∈ pre, s.visited.contains x.index = true) :
    ∀ x ∈ pre ++ [n], s'.visited.contains x.index = true := by
  intro x hx
  rw [h.visited]
  rcases List.mem_append.1 hx with hx | hx
  · exact .inr (hvis x hx)
  · exact .inl (List.mem_singleton.1 hx)

theorem unchanged (h : g.SweepStep entry n d s s') (hc : s'.changed = false) :
    s.changed = false ∧ s.table.idom n = some d ∧ ∀ x, s'.table.idom x = s.table.idom x := by
  rw [h.changed] at hc
  obtain ⟨hchanged, heq⟩ := Bool.or_eq_false_iff.1 hc
  have hn : s.table.idom n = some d := by simpa using heq
  refine ⟨hchanged, hn, fun x => (h.idom x).trans ?_⟩
  split
  · subst x
    exact hn.symm
  · rfl

end SweepStep

/-- A sweep over the rest of the preorder keeps the invariant and visits it. If it changed nothing,
the table is as before, and each link of it goes to a common ancestor of the predecessors. -/
theorem foldlM_sweepNode (hg : g.Consistent) (pre : List BlockId) {rest : List BlockId}
    (hsplit : g.preorder entry = pre ++ rest) (hpre : pre ≠ []) {s : Sweep}
    (h : g.SweepInv entry s.table s.visited)
    (hvis : ∀ x ∈ pre, s.visited.contains x.index = true) :
    ∃ s', rest.foldlM g.sweepNode s = .ok s' ∧ g.SweepInv entry s'.table s'.visited ∧
      (∀ x ∈ pre ++ rest, s'.visited.contains x.index = true) ∧
      (s'.changed = false → s.changed = false ∧ (∀ x, s'.table.idom x = s.table.idom x) ∧
        ∀ n ∈ rest, ∃ d, s.table.idom n = some d ∧
          ∀ p, n ∈ g.successors p → s.visited.contains p.index = true → s.table.Above p d) := by
  induction rest generalizing pre s with
  | nil =>
    refine ⟨s, rfl, h, by simpa using hvis, fun hc => ⟨hc, fun _ => rfl, by simp⟩⟩
  | cons n rest ih =>
    obtain ⟨d, s₁, hstep⟩ := exists_sweepStep hg hsplit hpre h hvis
    have hsplit₁ : g.preorder entry = (pre ++ [n]) ++ rest := by
      rw [hsplit, List.append_assoc, List.singleton_append]
    obtain ⟨s', hrun, hinv', hall, hsame⟩ :=
      ih _ hsplit₁ (by simp) hstep.inv (hstep.visited_append hvis)
    refine ⟨s', ?_, hinv', by simpa using hall, fun hc => ?_⟩
    · rw [List.foldlM_cons, hstep.run]
      exact hrun
    · -- Without a change the later steps saw the same table as this one.
      obtain ⟨hchanged, hidom, hrest⟩ := hsame hc
      obtain ⟨hchanged, hn, hkeep⟩ := hstep.unchanged hchanged
      refine ⟨hchanged, fun x => (hidom x).trans (hkeep x), fun m hm => ?_⟩
      rcases List.mem_cons.1 hm with rfl | hm
      · exact ⟨d, hn, hstep.above⟩
      · obtain ⟨e, he, hep⟩ := hrest m hm
        refine ⟨e, (hkeep m).symm.trans he, fun p hp hpv => ?_⟩
        rw [← IdomTable.above_congr hkeep]
        exact hep p hp ((hstep.visited p).2 (.inr hpv))

/-- Every link goes to a common ancestor of the reachable predecessors. -/
def Settled (g : FlowGraph) (entry : BlockId) (t : IdomTable) : Prop :=
  ∀ n, g.Reaches entry n → n ≠ entry → ∃ d, t.idom n = some d ∧
    ∀ p, n ∈ g.successors p → g.Reaches entry p → t.Above p d

theorem settle_spec (hg : g.Consistent) {rest : List BlockId}
    (horder : g.preorder entry = entry :: rest) {limit left left' : Nat}
    (h : g.SweepInv entry t visited) (hrun : g.settle rest limit left t visited = .ok (t', left')) :
    ∃ visited', g.SweepInv entry t' visited' ∧
      (∀ x : BlockId, g.Reaches entry x → visited'.contains x.index = true) ∧
      g.Settled entry t' := by
  induction left generalizing t visited with
  | zero => simp [settle] at hrun
  | succ left ih =>
    obtain ⟨s, hs, hinv, hall, hsame⟩ := foldlM_sweepNode hg [entry] horder (by simp)
      (s := ⟨t, visited, false⟩) h fun x hx => List.mem_singleton.1 hx ▸ h.entry_visited
    have hreach : ∀ x : BlockId, g.Reaches entry x → x ∈ [entry] ++ rest := by
      intro x hx
      have hmem := (mem_preorder hg.below entry x).2 hx
      rwa [horder] at hmem
    unfold settle at hrun
    rw [hs] at hrun
    change (if s.changed = true then _ else _) = _ at hrun
    by_cases hc : s.changed = true
    · rw [if_pos hc] at hrun
      exact ih hinv hrun
    · rw [if_neg hc] at hrun
      obtain ⟨rfl, -⟩ := Prod.mk.inj (Except.ok.inj hrun)
      refine ⟨s.visited, hinv, fun x hx => hall x (hreach x hx), ?_⟩
      obtain ⟨-, hidom, hfix⟩ := hsame (by simpa using hc)
      intro n hn hne
      have mem_rest : ∀ m, g.Reaches entry m → m ≠ entry → m ∈ rest := fun m hm hme =>
        (List.mem_cons.1 (hreach m hm)).resolve_left hme
      obtain ⟨d, hd, hup⟩ := hfix n (mem_rest n hn hne)
      refine ⟨d, (hidom n).trans hd, fun p hp hpr => ?_⟩
      rw [IdomTable.above_congr hidom]
      refine hup p hp ?_
      -- All nodes had been visited before: an unvisited one would have got its first link.
      by_cases hpe : p = entry
      · exact hpe ▸ h.entry_visited
      · obtain ⟨e, he, -⟩ := hfix p (mem_rest p hpr hpe)
        exact (h.link p e he).2.1

/-- Nodes on the chain of a settled table are on every path. -/
theorem Settled.mem_path (hs : g.Settled entry t) (hentry : t.idom entry = none)
    {p : List BlockId} (hp : g.Path entry n p) (ha : t.Above n a) : a ∈ p := by
  induction hp generalizing a with
  | start => rw [ha.eq_of_idom_none hentry]; simp
  | @step b n p hp hn ih =>
    by_cases hne : n = entry
    · subst hne
      rw [ha.eq_of_idom_none hentry]
      simp
    · obtain ⟨d, hd, hup⟩ := hs n (.step ⟨p, hp⟩ hn) hne
      rcases ha.cases_idom with rfl | ⟨e, he, hea⟩
      · simp
      · obtain rfl := Option.some.inj (hd.symm.trans he)
        exact List.mem_append_left _ (ih ((hup b hn ⟨p, hp⟩).trans hea))

end FlowGraph

/-- `t` is the dominator tree of `g` from its entry: reachability, dominance and immediate
dominators are those of the paths of `g`. -/
structure DominatorTree.IsFor (t : DominatorTree) (g : FlowGraph) : Prop where
  order_eq : t.order = g.preorder t.entry
  isReachable_iff : ∀ n, t.isReachable n = true ↔ g.Reaches t.entry n
  above_iff : ∀ n a, g.Reaches t.entry n → (t.table.Above n a ↔ g.Dominates t.entry a n)
  mem_chain_iff : ∀ n a, g.Reaches t.entry n → (a ∈ t.table.chain n ↔ t.table.Above n a)
  idom_reaches : ∀ n d, t.idom n = some d → g.Reaches t.entry n ∧ n ≠ t.entry
  idom_exists : ∀ n, g.Reaches t.entry n → n ≠ t.entry → ∃ d, t.idom n = some d
  place_lt : ∀ n d, t.idom n = some d → g.place t.entry d < g.place t.entry n
  place_le : ∀ n, g.Reaches t.entry n → g.place t.entry n ≤ t.table.size

namespace FlowGraph

variable {g : FlowGraph} {entry : BlockId}

theorem dominators_isFor (hg : g.Consistent) {limit : Nat} {t : DominatorTree}
    (h : g.dominators entry limit = .ok t) : t.entry = entry ∧ t.IsFor g := by
  unfold dominators at h
  simp only [bind, Except.bind] at h
  split at h
  · cases h
  · rename_i result hrun
    obtain ⟨table, left⟩ := result
    obtain rfl := Except.ok.inj h
    refine ⟨rfl, ?_⟩
    have horder := preorder_eq_cons hg.below entry
    obtain ⟨visited, hinv, hall, hset⟩ := settle_spec hg horder (SweepInv.init g entry) hrun
    have above_iff : ∀ n a, g.Reaches entry n → (table.Above n a ↔ g.Dominates entry a n) := by
      intro n a hn
      refine ⟨fun ha => ⟨hn, fun p hp => hset.mem_path hinv.idom_entry hp ha⟩, ?_⟩
      exact hinv.complete n a (hall n hn)
    refine ⟨rfl, fun n => ?_, above_iff, fun n a hn => ?_, fun n d hd => ?_, fun n hn hne => ?_,
      hinv.rank_lt, fun n hn => hinv.place_le hg (hall n hn)⟩
    · have hmem : n.index ∈ (g.preorder entry).map Handle.index ↔ n ∈ g.preorder entry := by
        refine ⟨fun hi => ?_, fun hn => List.mem_map_of_mem hn⟩
        obtain ⟨x, hx, hxn⟩ := List.mem_map.1 hi
        exact Handle.ext hxn ▸ hx
      rw [DominatorTree.isReachable, IndexSet.contains_ofList, hmem, mem_preorder hg.below]
    · exact IdomTable.mem_chain_iff hinv.rank_lt (hinv.place_le hg (hall n hn))
    · obtain ⟨h1, h2, -⟩ := hinv.link n d hd
      exact ⟨hinv.reached n h2, h1⟩
    · exact hinv.linked n (hall n hn) hne

end FlowGraph

namespace DominatorTree.IsFor

variable {t : DominatorTree} {g : FlowGraph} {a b c d n : BlockId}

theorem mem_order_iff (hg : g.Consistent) (h : t.IsFor g) : n ∈ t.order ↔ g.Reaches t.entry n := by
  rw [h.order_eq, FlowGraph.mem_preorder hg.below]

theorem dominates_iff (h : t.IsFor g) : t.dominates a b = true ↔ g.Dominates t.entry a b := by
  unfold dominates dominatorsOf
  by_cases hb : g.Reaches t.entry b
  · rw [if_pos ((h.isReachable_iff b).2 hb), Bool.and_eq_true, h.isReachable_iff,
      List.contains_iff_mem, h.mem_chain_iff b a hb, h.above_iff b a hb]
    exact ⟨And.right, fun hd => ⟨hd.reaches_left, hd⟩⟩
  · rw [if_neg fun hr => hb ((h.isReachable_iff b).1 hr)]
    simp only [List.contains_nil, Bool.and_false, Bool.false_eq_true, false_iff]
    exact fun hd => hb hd.reaches

theorem strictlyDominates_iff (h : t.IsFor g) :
    t.strictlyDominates a b = true ↔ g.StrictlyDominates t.entry a b := by
  rw [strictlyDominates, Bool.and_eq_true, h.dominates_iff, bne_iff_ne]
  rfl

theorem idom_spec (h : t.IsFor g) (hd : t.idom n = some d) :
    g.StrictlyDominates t.entry d n ∧
      ∀ c, g.StrictlyDominates t.entry c n → g.Dominates t.entry c d := by
  obtain ⟨hn, hne⟩ := h.idom_reaches n d hd
  have hdn : g.Dominates t.entry d n := (h.above_iff n d hn).1 (.link hd)
  refine ⟨⟨?_, hdn⟩, fun c hc => ?_⟩
  · rintro rfl
    have := h.place_lt _ _ hd
    omega
  · rw [← h.above_iff d c hdn.reaches_left]
    rcases ((h.above_iff n c hn).2 hc.2).cases_idom with heq | ⟨e, he, hec⟩
    · exact absurd heq.symm hc.1
    · obtain rfl := Option.some.inj (he.symm.trans hd)
      exact hec

theorem idom_eq_none (h : t.IsFor g) (hn : n = t.entry ∨ ¬ g.Reaches t.entry n) :
    t.idom n = none := by
  cases hd : t.idom n with
  | none => rfl
  | some d =>
    obtain ⟨h1, h2⟩ := h.idom_reaches n d hd
    rcases hn with hn | hn
    · exact absurd hn h2
    · exact absurd h1 hn

end DominatorTree.IsFor

namespace FlowGraph

/-- A dominator tree answers for the paths of its graph: `dominates` is dominance on all paths, the
entry and the unreachable nodes have no immediate dominator, and that of any other node is its only
strict dominator that every strict dominator dominates. -/
theorem dominators_eq_path_dominance (g : FlowGraph) (hg : g.Consistent) (entry : BlockId)
    (limit : Nat) (t : DominatorTree) (h : g.dominators entry limit = .ok t) :
    (∀ a b, t.dominates a b = true ↔
      g.Reaches entry a ∧ g.Reaches entry b ∧ ∀ p, g.Path entry b p → a ∈ p) ∧
    (∀ b, b = entry ∨ ¬ g.Reaches entry b → t.idom b = none) ∧
    ∀ b, b ≠ entry → g.Reaches entry b → ∃ d, t.idom b = some d ∧
      ∀ e, e = d ↔ g.StrictlyDominates entry e b ∧
        ∀ c, g.StrictlyDominates entry c b → g.Dominates entry c e := by
  obtain ⟨rfl, ht⟩ := dominators_isFor hg h
  refine ⟨fun a b => ?_, fun b hb => ht.idom_eq_none hb, fun b hne hb => ?_⟩
  · rw [ht.dominates_iff]
    exact ⟨fun hd => ⟨hd.reaches_left, hd.reaches, hd.onPath⟩, fun hd => ⟨hd.2.1, hd.2.2⟩⟩
  · obtain ⟨d, hd⟩ := ht.idom_exists b hb hne
    obtain ⟨hdb, hlow⟩ := ht.idom_spec hd
    refine ⟨d, hd, fun e => ⟨fun he => he ▸ ⟨hdb, hlow⟩, fun he => ?_⟩⟩
    exact (hlow e he.1).antisymm (he.2 d hdb)

/-- A loop with two ways in: neither of its nodes dominates the other. -/
def twoDoorLoop : FlowGraph :=
  ofEdges 5 [(⟨0⟩, ⟨1⟩), (⟨0⟩, ⟨2⟩), (⟨1⟩, ⟨2⟩), (⟨2⟩, ⟨1⟩), (⟨1⟩, ⟨3⟩), (⟨3⟩, ⟨3⟩), (⟨4⟩, ⟨3⟩)]

theorem twoDoorLoop_dominators :
    ∃ t, twoDoorLoop.dominators ⟨0⟩ 8 = .ok t ∧ t.idom ⟨1⟩ = some ⟨0⟩ ∧
      (t.dominates ⟨1⟩ ⟨3⟩ = true ↔ twoDoorLoop.Reaches ⟨0⟩ ⟨1⟩ ∧ twoDoorLoop.Reaches ⟨0⟩ ⟨3⟩ ∧
        ∀ p, twoDoorLoop.Path ⟨0⟩ ⟨3⟩ p → ⟨1⟩ ∈ p) := by
  have hg : twoDoorLoop.Consistent := ofEdges_consistent (by decide)
  obtain ⟨t, ht, hidom⟩ : ∃ t, twoDoorLoop.dominators ⟨0⟩ 8 = .ok t ∧ t.idom ⟨1⟩ = some ⟨0⟩ :=
    ⟨_, rfl, by decide⟩
  exact ⟨t, ht, hidom, (dominators_eq_path_dominance twoDoorLoop hg ⟨0⟩ 8 t ht).1 ⟨1⟩ ⟨3⟩⟩

end FlowGraph

end Midend
