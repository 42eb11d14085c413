import Midend.Proofs.Checked
import Midend.Proofs.Graph.Dominators

/-!
How many sweeps it takes. An edge retreats when it does not go forward in the preorder. After `k`
sweeps the chain of a node is right for every path to it with fewer than `k` retreating edges, and
within the next sweep for one more as soon as the node has had its turn. On a path without repetition
the retreating edges fall short of the nodes by at least two, so the tree settles before the sweeps
outnumber the nodes.
-/

namespace Midend.FlowGraph

variable {g : FlowGraph} {entry a b c d m n x : BlockId} {j k : Nat} {p : List BlockId}
  {t : IdomTable}

/-- A path from the entry, and a bound on the number of its retreating edges. -/
inductive Retreats (g : FlowGraph) (entry : BlockId) : Nat → BlockId → List BlockId → Prop where
  | start : Retreats g entry 0 entry [entry]
  | advance {k : Nat} {b c : BlockId} {p : List BlockId} : Retreats g entry k b p →
      c ∈ g.successors b → g.place entry b < g.place entry c → Retreats g entry k c (p ++ [c])
  | retreat {k : Nat} {b c : BlockId} {p : List BlockId} : Retreats g entry k b p →
      c ∈ g.successors b → Retreats g entry (k + 1) c (p ++ [c])

namespace Retreats

theorem path (h : g.Retreats entry k n p) : g.Path entry n p := by
  induction h with
  | start => exact .start
  | advance _ hc _ ih => exact ih.step hc
  | retreat _ hc ih => exact ih.step hc

theorem cut (h : g.Retreats entry k n p) (hx : x ∈ p) :
    ∃ j ≤ k, ∃ q, g.Retreats entry j x q ∧ q ⊆ p := by
  induction h with
  | start =>
    obtain rfl := List.mem_singleton.1 hx
    exact ⟨0, Nat.le_refl 0, _, .start, fun _ h => h⟩
  | @advance k b c p h hc hlt ih =>
    rcases List.mem_append.1 hx with hx | hx
    · obtain ⟨j, hj, q, hq, hqp⟩ := ih hx
      exact ⟨j, hj, q, hq, fun y hy => List.mem_append_left _ (hqp hy)⟩
    · obtain rfl := List.mem_singleton.1 hx
      exact ⟨k, Nat.le_refl k, _, h.advance hc hlt, fun _ h => h⟩
  | @retreat k b c p h hc ih =>
    rcases List.mem_append.1 hx with hx | hx
    · obtain ⟨j, hj, q, hq, hqp⟩ := ih hx
      exact ⟨j, Nat.le_succ_of_le hj, q, hq, fun y hy => List.mem_append_left _ (hqp hy)⟩
    · obtain rfl := List.mem_singleton.1 hx
      exact ⟨k + 1, Nat.le_refl _, _, h.retreat hc, fun _ h => h⟩

end Retreats

theorem place_entry (hg : g.Consistent) (entry : BlockId) : g.place entry entry = 0 := by
  have hhead := preorder_head? hg.below entry
  unfold place
  cases hl : g.preorder entry with
  | nil => simp [hl] at hhead
  | cons y rest =>
    rw [hl] at hhead
    obtain rfl := Option.some.inj hhead
    exact List.idxOf_cons_self

theorem place_injective (hg : g.Consistent) (hb : g.Reaches entry b)
    (h : g.place entry b = g.place entry c) : b = c := by
  have hmem := (mem_preorder hg.below entry b).2 hb
  exact (List.idxOf_inj hmem).1 h

/-- A path without repetition: its first edge goes forward. -/
theorem Path.retreats (hg : g.Consistent) (h : g.Path entry n p) (hnd : p.Nodup) :
    ∃ j, g.Retreats entry j n p ∧ (j = 0 ∨ j + 2 ≤ p.length) := by
  induction h with
  | start => exact ⟨0, .start, .inl rfl⟩
  | @step b c p h hc ih =>
    obtain ⟨hnd, -, hfresh⟩ := List.nodup_append.1 hnd
    obtain ⟨j, hj, hle⟩ := ih hnd
    have hce : c ≠ entry := fun he => hfresh entry h.start_mem c (List.mem_singleton_self c) he.symm
    cases h with
    | start =>
      have hlt : g.place entry entry < g.place entry c := by
        rw [place_entry hg, Nat.pos_iff_ne_zero]
        intro hzero
        exact hce (place_injective hg (.refl entry) ((place_entry hg entry).trans hzero.symm)).symm
      exact ⟨0, .advance .start hc hlt, .inl rfl⟩
    | step h' hb =>
      refine ⟨j + 1, hj.retreat hc, .inr ?_⟩
      have hpos := List.length_pos_of_mem h'.start_mem
      simp only [List.length_append, List.length_singleton] at hle ⊢
      omega

theorem Path.simple (h : g.Path a b p) : ∃ q, g.Path a b q ∧ q.Nodup ∧ q ⊆ p := by
  -- A node that comes again is the end of a shorter path already.
  suffices hall : ∀ x ∈ p, ∃ q, g.Path a x q ∧ q.Nodup ∧ q ⊆ p from hall b h.end_mem
  induction h with
  | start =>
    intro x hx
    obtain rfl := List.mem_singleton.1 hx
    exact ⟨_, .start, List.nodup_singleton _, fun _ h => h⟩
  | @step b c p h hc ih =>
    intro x hx
    by_cases hxp : x ∈ p
    · obtain ⟨q, hq, hnd, hqp⟩ := ih x hxp
      exact ⟨q, hq, hnd, fun y hy => List.mem_append_left _ (hqp hy)⟩
    · have hxc : x = c := by
        rcases List.mem_append.1 hx with hx | hx
        · exact absurd hx hxp
        · exact List.mem_singleton.1 hx
      obtain ⟨q, hq, hnd, hqp⟩ := ih b h.end_mem
      refine ⟨q ++ [x], hq.step (hxc ▸ hc), ?_, ?_⟩
      · refine List.nodup_append.2 ⟨hnd, List.nodup_singleton x, fun y hy z hz => ?_⟩
        rw [List.mem_singleton.1 hz]
        exact fun hyx => hxp (hyx ▸ hqp hy)
      · intro y hy
        rcases List.mem_append.1 hy with hy | hy
        · exact List.mem_append_left _ (hqp hy)
        · exact List.mem_append_right _ (hxc ▸ hy)

/-- After `k` sweeps and the turns of the nodes in `pre`: all that stands on the chain of a node is
on every path to it with few enough retreating edges. -/
def Cleared (g : FlowGraph) (entry : BlockId) (k : Nat) (pre : List BlockId) (t : IdomTable) :
    Prop :=
  ∀ n p j, g.Retreats entry j n p → (j < k ∨ (j = k ∧ n ∈ pre)) → ∀ a, t.Above n a → a ∈ p

theorem Cleared.step (hg : g.Consistent) {pre rest : List BlockId}
    (hsplit : g.preorder entry = pre ++ n :: rest) {s s' : Sweep}
    (hinv : g.SweepInv entry s.table s.visited) (hvis : ∀ x ∈ pre, s.visited.contains x.index = true)
    (hall : 0 < k → ∀ x, g.Reaches entry x → s.visited.contains x.index = true)
    (h : g.Cleared entry k pre s.table) (hstep : g.SweepStep entry n d s s') :
    g.Cleared entry k (pre ++ [n]) s'.table := by
  -- The links above `d` are those that were there before.
  have hold : ∀ a, s'.table.Above d a → s.table.Above d a := by
    intro a ha
    rcases IdomTable.above_of_relink hinv.rank_lt hstep.earlier hstep.idom ha with ha | ⟨hdn, -⟩
    · exact ha
    · exact absurd hdn (IdomTable.not_above_new hinv.rank_lt hstep.earlier)
  -- The new chain of `n` is right: each way in comes from a node whose chain is.
  have hturn : ∀ p j, g.Retreats entry j n p → j ≤ k → ∀ a, s.table.Above d a → a ∈ p := by
    intro p j hp hj a ha
    cases hp with
    | start => exact absurd rfl hstep.ne_entry
    | @advance _ b _ p hp hn hlt =>
      have hb : b ∈ pre := by
        have hmem := (mem_preorder hg.below entry b).2 ⟨p, hp.path⟩
        have hnd : (pre ++ n :: rest).Nodup := hsplit ▸ preorder_nodup hg.below entry
        have hnpre : n ∉ pre := fun hmem => List.disjoint_of_nodup_append hnd hmem List.mem_cons_self
        unfold place at hlt
        rw [hsplit] at hmem hlt
        rw [List.idxOf_append_of_notMem hnpre, List.idxOf_cons_self] at hlt
        by_contra hbpre
        rw [List.idxOf_append_of_notMem hbpre] at hlt
        omega
      refine List.mem_append_left _ (h b p j hp ?_ a ?_)
      · rcases Nat.lt_or_eq_of_le hj with hj | hj
        · exact .inl hj
        · exact .inr ⟨hj, hb⟩
      · exact (hstep.above b hn (hvis b hb)).trans ha
    | @retreat j b _ p hp hn =>
      have hb := hall (Nat.lt_of_lt_of_le (Nat.succ_pos j) hj) b ⟨p, hp.path⟩
      exact List.mem_append_left _ (h b p j hp (.inl hj) a ((hstep.above b hn hb).trans ha))
  intro x p j hp hj a ha
  by_cases hxn : x = n
  · subst hxn
    rcases ha.cases_idom with rfl | ⟨e, he, hea⟩
    · exact hp.path.end_mem
    · rw [hstep.idom, if_pos rfl] at he
      obtain rfl := Option.some.inj he
      exact hturn p j hp (by omega) a (hold a hea)
  · have hbefore : j < k ∨ (j = k ∧ x ∈ pre) := by
      refine hj.imp_right fun ⟨hjk, hx⟩ => ⟨hjk, ?_⟩
      rcases List.mem_append.1 hx with hx | hx
      · exact hx
      · exact absurd (List.mem_singleton.1 hx) hxn
    rcases IdomTable.above_of_relink hinv.rank_lt hstep.earlier hstep.idom ha with ha | ⟨hxn', hda⟩
    · exact h x p j hp hbefore a ha
    · -- `n` is on the path, and what is now above `n` is on the part that leads there.
      obtain ⟨i, hi, q, hq, hqp⟩ := hp.cut (h x p j hp hbefore n hxn')
      exact hqp (hturn q i hq (by omega) a hda)

theorem Cleared.sweep (hg : g.Consistent) (pre : List BlockId) {rest : List BlockId}
    (hsplit : g.preorder entry = pre ++ rest) (hpre : pre ≠ []) {s s' : Sweep}
    (hinv : g.SweepInv entry s.table s.visited) (hvis : ∀ x ∈ pre, s.visited.contains x.index = true)
    (hall : 0 < k → ∀ x, g.Reaches entry x → s.visited.contains x.index = true)
    (h : g.Cleared entry k pre s.table) (hrun : rest.foldlM g.sweepNode s = .ok s') :
    g.Cleared entry k (pre ++ rest) s'.table := by
  induction rest generalizing pre s with
  | nil =>
    obtain rfl := Except.ok.inj hrun
    rwa [List.append_nil]
  | cons n rest ih =>
    obtain ⟨d, s₁, hstep⟩ := exists_sweepStep hg hsplit hpre hinv hvis
    rw [List.foldlM_cons, hstep.run] at hrun
    have hsplit₁ : g.preorder entry = (pre ++ [n]) ++ rest := by
      rw [hsplit, List.append_assoc, List.singleton_append]
    have hcleared := h.step hg hsplit hinv hvis hall hstep
    have hrest := ih _ hsplit₁ (by simp) hstep.inv (hstep.visited_append hvis)
      (fun hk x hx => (hstep.visited x).2 (.inr (hall hk x hx))) hcleared hrun
    rwa [List.append_assoc, List.singleton_append] at hrest

/-- Chains without a node too many. -/
def Exact (g : FlowGraph) (entry : BlockId) (t : IdomTable) : Prop :=
  ∀ n a, g.Reaches entry n → t.Above n a → g.Dominates entry a n

/-- As many sweeps as there are nodes besides the entry are enough. -/
theorem Cleared.exact (hg : g.Consistent) (h : g.Cleared entry k [entry] t)
    (hentry : t.idom entry = none) (hk : (g.preorder entry).length ≤ k + 1) :
    g.Exact entry t := by
  intro n a hn ha
  refine ⟨hn, fun p hp => ?_⟩
  obtain ⟨q, hq, hnd, hqp⟩ := hp.simple
  obtain ⟨j, hj, hle⟩ := hq.retreats hg hnd
  have hlength : q.length ≤ (g.preorder entry).length := by
    refine (List.subperm_of_subset hnd fun x hx => ?_).length_le
    exact (mem_preorder hg.below entry x).2 (.of_mem_path hq hx)
  by_cases hne : n = entry
  · subst hne
    rw [ha.eq_of_idom_none hentry]
    exact hp.end_mem
  · have hlong : 2 ≤ q.length := by
      cases hq with
      | start => exact absurd rfl hne
      | step hq _ =>
        have := List.length_pos_of_mem hq.start_mem
        simp only [List.length_append, List.length_singleton]
        omega
    exact hqp (h n q j hj (.inl (by omega)) a ha)

theorem Exact.step (hg : g.Consistent) {s s' : Sweep} (h : g.Exact entry s.table)
    (hinv : g.SweepInv entry s.table s.visited)
    (hall : ∀ x, g.Reaches entry x → s.visited.contains x.index = true) (hn : g.Reaches entry n)
    (hstep : g.SweepStep entry n d s s') : s.table.idom n = some d := by
  obtain ⟨e, he⟩ := hinv.linked n (hall n hn) hstep.ne_entry
  have hen : g.Dominates entry e n := h n e hn (.link he)
  have hplace := hinv.rank_lt n e he
  -- The old link dominates `n`, so it is above all predecessors, and above `d`, the lowest such
  -- node.
  have hde : s.table.Above d e := by
    refine hstep.lowest e fun p hp hv => hinv.complete p e hv ?_
    refine hen.of_step ?_ (hinv.reached p hv) hp
    rintro rfl
    exact Nat.lt_irrefl _ hplace
  -- The new link is above all predecessors, so every way to `n` leads by it.
  have hdn : g.Dominates entry d n := by
    refine ⟨hn, fun p hp => ?_⟩
    cases hp with
    | start => exact absurd rfl hstep.ne_entry
    | @step b _ p hp hb =>
      have hbd := hstep.above b hb (hall b ⟨p, hp⟩)
      exact List.mem_append_left _ ((h b d ⟨p, hp⟩ hbd).onPath p hp)
  have hed : s.table.Above e d := by
    rcases (hinv.complete n d (hall n hn) hdn).cases_idom with heq | ⟨e', he', hed⟩
    · have := heq ▸ hstep.earlier
      omega
    · obtain rfl := Option.some.inj (he.symm.trans he')
      exact hed
  have hsame : e = d := by
    refine place_injective hg hen.reaches_left (Nat.le_antisymm ?_ ?_)
    · exact hde.rank_le hinv.rank_lt
    · exact hed.rank_le hinv.rank_lt
  rw [he, hsame]

theorem Exact.sweep (hg : g.Consistent) (pre : List BlockId) {rest : List BlockId}
    (hsplit : g.preorder entry = pre ++ rest) (hpre : pre ≠ []) {s s' : Sweep}
    (h : g.Exact entry s.table) (hinv : g.SweepInv entry s.table s.visited)
    (hall : ∀ x, g.Reaches entry x → s.visited.contains x.index = true)
    (hrun : rest.foldlM g.sweepNode s = .ok s') : s'.changed = s.changed := by
  induction rest generalizing pre s with
  | nil =>
    obtain rfl := Except.ok.inj hrun
    rfl
  | cons n rest ih =>
    have hreach : ∀ x ∈ pre ++ n :: rest, g.Reaches entry x := fun x hx =>
      (mem_preorder hg.below entry x).1 (hsplit ▸ hx)
    obtain ⟨d, s₁, hstep⟩ := exists_sweepStep hg hsplit hpre hinv fun x hx =>
      hall x (hreach x (List.mem_append_left _ hx))
    -- By exactness the step finds the link that is there, so it changes nothing.
    have hlink := h.step hg hinv hall (hreach n (by simp)) hstep
    have hkeep : ∀ x, s₁.table.idom x = s.table.idom x := by
      intro x
      rw [hstep.idom]
      split
      · subst x
        exact hlink.symm
      · rfl
    have hexact : g.Exact entry s₁.table := fun x a hx ha =>
      h x a hx ((IdomTable.above_congr hkeep x a).1 ha)
    have hsplit₁ : g.preorder entry = (pre ++ [n]) ++ rest := by
      rw [hsplit, List.append_assoc, List.singleton_append]
    rw [List.foldlM_cons, hstep.run] at hrun
    calc s'.changed = s₁.changed := ih _ hsplit₁ (by simp) hexact hstep.inv
          (fun x hx => (hstep.visited x).2 (.inr (hall x hx))) hrun
      _ = s.changed := by
        rw [hstep.changed, hlink]
        simp

/-- The sweeps settle if their number and those done before come to the number of nodes. -/
theorem settle_ok (hg : g.Consistent) {rest : List BlockId}
    (horder : g.preorder entry = entry :: rest) (limit : Nat) {left : Nat} {visited : IndexSet}
    (hinv : g.SweepInv entry t visited) (h : g.Cleared entry k [entry] t)
    (hall : 0 < k → ∀ x, g.Reaches entry x → visited.contains x.index = true)
    (hleft : 0 < left) (hk : (g.preorder entry).length ≤ k + left) :
    ∃ result, g.settle rest limit left t visited = .ok result := by
  induction left generalizing t visited k with
  | zero => exact absurd hleft (Nat.lt_irrefl 0)
  | succ left ih =>
    have hvis : ∀ x ∈ [entry], visited.contains x.index = true := fun x hx =>
      List.mem_singleton.1 hx ▸ hinv.entry_visited
    obtain ⟨s, hrun, hinv', hall', -⟩ := foldlM_sweepNode hg [entry] horder (by simp)
      (s := ⟨t, visited, false⟩) hinv hvis
    have hcleared := h.sweep hg [entry] horder (by simp) (s := ⟨t, visited, false⟩) hinv hvis hall
      hrun
    unfold settle
    rw [hrun]
    change ∃ result, (if s.changed = true then _ else _) = _
    by_cases hc : s.changed = true
    · rw [if_pos hc]
      have hmem : ∀ x, g.Reaches entry x → x ∈ [entry] ++ rest := by
        intro x hx
        have hx := (mem_preorder hg.below entry x).2 hx
        rwa [horder] at hx
      -- A change means that the chains were not exact yet, so there are sweeps left.
      have hmore : k + 1 < (g.preorder entry).length := by
        by_contra hfew
        have hexact := h.exact hg hinv.idom_entry (Nat.not_lt.1 hfew)
        cases hrest : rest with
        | nil =>
          rw [hrest] at hrun
          obtain rfl := Except.ok.inj hrun
          cases hc
        | cons y ys =>
          have hpos : 0 < k := by
            rw [horder, hrest] at hfew
            simp only [List.length_cons] at hfew
            omega
          have hsame := hexact.sweep hg [entry] horder (by simp) (s := ⟨t, visited, false⟩) hinv
            (hall hpos) hrun
          rw [hsame] at hc
          cases hc
      refine ih (k := k + 1) hinv' ?_ (fun _ x hx => hall' x (hmem x hx)) (by omega) (by omega)
      intro n p j hp hj a ha
      rcases hj with hj | ⟨-, hn⟩
      · rcases Nat.lt_or_eq_of_le (Nat.le_of_lt_succ hj) with hj | hj
        · exact hcleared n p j hp (.inl hj) a ha
        · exact hcleared n p j hp (.inr ⟨hj, hmem n ⟨p, hp.path⟩⟩) a ha
      · obtain rfl := List.mem_singleton.1 hn
        rw [ha.eq_of_idom_none hinv'.idom_entry]
        exact hp.path.end_mem
    · rw [if_neg hc]
      exact ⟨_, rfl⟩

/-- A limit of one sweep for each reachable node is never exceeded. -/
theorem dominators_ok (hg : g.Consistent) (entry : BlockId) {limit : Nat}
    (h : (g.preorder entry).length ≤ limit) : ∃ tree, g.dominators entry limit = .ok tree := by
  obtain ⟨rest, horder⟩ : ∃ rest, g.preorder entry = entry :: rest :=
    ⟨_, preorder_eq_cons hg.below entry⟩
  have hpos : 0 < limit := by
    rw [horder, List.length_cons] at h
    omega
  have hinit : g.Cleared entry 0 [entry]
      (Array.replicate (max g.size (entry.index + 1)) none) := by
    intro n p j hp hj a ha
    rcases hj with hj | ⟨-, hn⟩
    · exact absurd hj (Nat.not_lt_zero j)
    · obtain rfl := List.mem_singleton.1 hn
      rw [ha.eq_of_idom_none (SweepInv.init g n).idom_entry]
      exact hp.path.end_mem
  obtain ⟨⟨table, left⟩, hrun⟩ := settle_ok hg horder limit (SweepInv.init g entry) hinit
    (fun hk => absurd hk (Nat.lt_irrefl 0)) hpos (by omega)
  unfold dominators
  simp only [horder, List.drop_succ_cons, List.drop_zero, hrun]
  exact ⟨_, rfl⟩

theorem settle_of_le {order : List BlockId} {limit limit' left r k : Nat} {table t : IdomTable}
    {visited : IndexSet} (h : g.settle order limit left table visited = .ok (t, r)) :
    g.settle order limit' (left + k) table visited = .ok (t, r + k) := by
  induction left generalizing table visited with
  | zero => cases h
  | succ left ih =>
    rw [Nat.succ_add]
    obtain ⟨s, hs, h⟩ := bind_eq_ok.1 h
    refine bind_eq_ok.2 ⟨s, hs, ?_⟩
    split at h
    · rw [if_pos ‹_›]
      exact ih h
    · rw [if_neg ‹_›]
      obtain ⟨rfl, rfl⟩ := Prod.mk.inj (Except.ok.inj h)
      rfl

theorem dominators_of_le {entry : BlockId} {limit limit' : Nat} {tree : DominatorTree}
    (h : g.dominators entry limit = .ok tree) (hle : limit ≤ limit') :
    g.dominators entry limit' = .ok tree := by
  obtain ⟨k, rfl⟩ := Nat.exists_eq_add_of_le hle
  obtain ⟨⟨table, left⟩, hsettle, h⟩ := bind_eq_ok.1 h
  obtain rfl := pure_eq_ok.1 h
  refine bind_eq_ok.2 ⟨⟨table, left + k⟩, settle_of_le hsettle, ?_⟩
  dsimp only
  rw [Nat.add_sub_add_right]
  rfl

end Midend.FlowGraph
