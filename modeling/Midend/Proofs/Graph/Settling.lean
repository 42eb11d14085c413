import Mathlib.Data.Set.Card
import Midend.Proofs.Graph.Convergence

namespace Midend

namespace IdomTable

variable {t : IdomTable} {n root : BlockId} {rank : BlockId → Nat}

/-- With fuel for every link, a chain is not cut before the root. -/
theorem getLast?_climb (hr : ∀ n d, t.idom n = some d → rank d < rank n)
    (hroot : t.idom root = none) {fuel : Nat} (hfuel : rank n ≤ fuel) (h : t.Above n root) :
    (t.climb fuel n).getLast? = some root := by
  induction fuel generalizing n with
  | zero =>
    rcases h.cases_idom with rfl | ⟨d, hd, -⟩
    · rfl
    · have := hr n d hd
      omega
  | succ fuel ih =>
    unfold climb
    rcases h.cases_idom with rfl | ⟨d, hd, hdr⟩
    · rw [hroot]
      rfl
    · have hlt := hr n d hd
      rw [hd, List.getLast?_cons, ih (by omega) hdr]
      rfl

end IdomTable

namespace FlowGraph

variable {g : FlowGraph} {entry n x a b : BlockId}

theorem ncard_reaches (hg : g.Consistent) (entry : BlockId) :
    {n | g.Reaches entry n}.ncard = (g.preorder entry).length := by
  have hset : {n | g.Reaches entry n} = ((g.preorder entry).toFinset : Set BlockId) := by
    ext n
    rw [List.coe_toFinset]
    exact (mem_preorder hg.below entry n).symm
  rw [hset, Set.ncard_coe_finset, List.toFinset_card_of_nodup (preorder_nodup hg.below entry)]

/-- The states that the sweeps from `entry` go through, with the nodes that still have their turn in
the sweep. -/
inductive Underway (g : FlowGraph) (entry : BlockId) : Sweep → List BlockId → Prop where
  | start : Underway g entry
      ⟨Array.replicate (max g.size (entry.index + 1)) none,
        (IndexSet.withCapacity (max g.size (entry.index + 1))).insert entry.index, false⟩
      ((g.preorder entry).drop 1)
  | turn {s s' : Sweep} {n : BlockId} {rest : List BlockId} :
      Underway g entry s (n :: rest) → g.sweepNode s n = .ok s' → Underway g entry s' rest
  | again {s : Sweep} :
      Underway g entry s [] → s.changed = true →
      Underway g entry ⟨s.table, s.visited, false⟩ ((g.preorder entry).drop 1)

/-- On its turn `n` asks for the common dominator of `a`, found from the visited predecessors so far,
and `b`, the next of them. -/
def Compares (g : FlowGraph) (s : Sweep) (n a b : BlockId) : Prop :=
  ∃ pre post, (g.predecessors n).filter (fun p => s.visited.contains p.index) = pre ++ b :: post ∧
    pre.foldl (fun best p => match best with
      | none => some p
      | some q => some (s.table.commonDominator q p)) none = some a

namespace Underway

variable {s : Sweep} {rest : List BlockId}

theorem foldlM {s' : Sweep} (h : g.Underway entry s rest)
    (hrun : rest.foldlM g.sweepNode s = .ok s') : g.Underway entry s' [] := by
  induction rest generalizing s with
  | nil =>
    obtain rfl := Except.ok.inj hrun
    exact h
  | cons n rest ih =>
    rw [List.foldlM_cons] at hrun
    obtain ⟨s₁, hs₁, hrun⟩ := bind_eq_ok.1 hrun
    exact ih (h.turn hs₁) hrun

/-- The nodes whose turn is over have been visited, and the invariant of the sweeps holds. -/
theorem inv (hg : g.Consistent) (h : g.Underway entry s rest) :
    g.SweepInv entry s.table s.visited ∧ ∃ pre, g.preorder entry = entry :: pre ++ rest ∧
      ∀ x ∈ entry :: pre, s.visited.contains x.index = true := by
  have hentry : ∀ {s : Sweep}, g.SweepInv entry s.table s.visited →
      ∀ x ∈ [entry], s.visited.contains x.index = true := by
    intro s hs x hx
    rw [List.mem_singleton.1 hx]
    exact hs.entry_visited
  induction h with
  | start => exact ⟨.init g entry, [], preorder_eq_cons hg.below entry, hentry (.init g entry)⟩
  | @turn s s' n rest _ hrun ih =>
    obtain ⟨hs, pre, hsplit, hvis⟩ := ih
    obtain ⟨d, s₁, hstep⟩ := exists_sweepStep hg hsplit (List.cons_ne_nil _ _) hs hvis
    obtain rfl := Except.ok.inj (hstep.run.symm.trans hrun)
    refine ⟨hstep.inv, pre ++ [n], ?_, hstep.visited_append hvis⟩
    rw [hsplit, List.cons_append, List.cons_append, List.append_assoc, List.singleton_append]
  | again _ _ ih => exact ⟨ih.1, [], preorder_eq_cons hg.below entry, hentry ih.1⟩

end Underway

/-- The table of a run is that of a state without a change in its sweep. -/
theorem settle_underway {order : List BlockId} (horder : order = (g.preorder entry).drop 1)
    {limit left left' : Nat} {t t' : IdomTable} {visited : IndexSet}
    (h : g.Underway entry ⟨t, visited, false⟩ order)
    (hrun : g.settle order limit left t visited = .ok (t', left')) :
    ∃ s, g.Underway entry s [] ∧ s.changed = false ∧ s.table = t' := by
  induction left generalizing t visited with
  | zero => cases hrun
  | succ left ih =>
    obtain ⟨s, hs, hrun⟩ := bind_eq_ok.1 hrun
    have hend := h.foldlM hs
    split at hrun
    · refine ih ?_ hrun
      rw [horder]
      exact hend.again ‹_›
    · obtain ⟨rfl, -⟩ := Prod.mk.inj (Except.ok.inj hrun)
      exact ⟨s, hend, by simpa using ‹¬s.changed = true›, rfl⟩

theorem dominators_underway {limit : Nat} {t : DominatorTree}
    (h : g.dominators entry limit = .ok t) :
    ∃ s, g.Underway entry s [] ∧ s.changed = false ∧ s.table = t.table := by
  obtain ⟨⟨table, left⟩, hsettle, h⟩ := bind_eq_ok.1 h
  obtain rfl := pure_eq_ok.1 h
  exact settle_underway rfl .start hsettle

namespace SweepInv

variable {t : IdomTable} {visited : IndexSet}

theorem getLast?_chain (hg : g.Consistent) (h : g.SweepInv entry t visited)
    (hx : visited.contains x.index = true) : (t.chain x).getLast? = some entry :=
  IdomTable.getLast?_climb h.rank_lt h.idom_entry (h.place_le hg hx) (h.above_entry hx)

theorem compares_visited {s : Sweep} (hg : g.Consistent) (h : g.SweepInv entry s.table s.visited)
    (hab : g.Compares s n a b) :
    s.visited.contains a.index = true ∧ s.visited.contains b.index = true := by
  obtain ⟨pre, post, hsplit, hfold⟩ := hab
  have hvis : ∀ p ∈ pre ++ b :: post, s.visited.contains p.index = true := by
    intro p hp
    rw [← hsplit] at hp
    exact (List.mem_filter.1 hp).2
  refine ⟨?_, hvis b (by simp)⟩
  cases pre with
  | nil => cases hfold
  | cons q pre =>
    have hq : s.visited.contains q.index = true := hvis q (by simp)
    have hpre : ∀ p ∈ pre, s.visited.contains p.index = true := fun p hp => hvis p (by simp [hp])
    obtain ⟨c, hc, hqc, -⟩ := h.foldl_commonDominator hg hpre hq
    obtain rfl := Option.some.inj (hc.symm.trans hfold)
    exact h.above_visited hq hqc

end SweepInv

/-- Sweeps that do not settle ran out: no node lacks a visited predecessor. -/
theorem settle_error (hg : g.Consistent) {rest : List BlockId}
    (horder : g.preorder entry = entry :: rest) {limit left : Nat} {t : IdomTable}
    {visited : IndexSet} (hinv : g.SweepInv entry t visited) {err : Error}
    (h : g.settle rest limit left t visited = .error err) :
    err = .invariant (.dominatorsUnsettled limit) := by
  induction left generalizing t visited with
  | zero => exact (Except.error.inj h).symm
  | succ left ih =>
    obtain ⟨s, hrun, hinv', -⟩ := foldlM_sweepNode hg [entry] horder (by simp)
      (s := ⟨t, visited, false⟩) hinv fun x hx => List.mem_singleton.1 hx ▸ hinv.entry_visited
    unfold settle at h
    rw [hrun] at h
    change (if s.changed = true then _ else _) = _ at h
    split at h
    · exact ih hinv' h
    · cases h

theorem dominators_error (hg : g.Consistent) {limit : Nat} {err : Error}
    (h : g.dominators entry limit = .error err) :
    err = .invariant (.dominatorsUnsettled limit) := by
  unfold dominators at h
  simp only [bind, Except.bind] at h
  split at h
  · rename_i err' hsettle
    obtain rfl := Except.error.inj h
    exact settle_error hg (preorder_eq_cons hg.below entry) (.init g entry) hsettle
  · cases h

theorem sweeps_le_limit {limit : Nat} {t : DominatorTree} (h : g.dominators entry limit = .ok t) :
    t.sweeps ≤ limit := by
  obtain ⟨⟨table, left⟩, -, h⟩ := bind_eq_ok.1 h
  obtain rfl := pure_eq_ok.1 h
  exact Nat.sub_le _ _

/-- The limit does not matter to the tree, so a run takes no more sweeps than the lowest limit that
suffices. -/
theorem sweeps_le (hg : g.Consistent) {limit : Nat} {t : DominatorTree}
    (h : g.dominators entry limit = .ok t) : t.sweeps ≤ (g.preorder entry).length := by
  obtain ⟨t', ht'⟩ := dominators_ok hg entry (Nat.le_refl (g.preorder entry).length)
  rcases Nat.le_total limit (g.preorder entry).length with hle | hle
  · exact (sweeps_le_limit h).trans hle
  · obtain rfl := Except.ok.inj ((dominators_of_le ht' hle).symm.trans h)
    exact sweeps_le_limit ht'

/-- One sweep for each reachable node is enough, and a run takes no more; only the limit can be the
cause of an error; and whenever two nodes are compared, both of their chains end at the entry. -/
theorem dominators_settle (g : FlowGraph) (hg : g.Consistent) (entry : BlockId) :
    (∀ limit, {n | g.Reaches entry n}.ncard ≤ limit → ∃ t, g.dominators entry limit = .ok t) ∧
    (∀ limit t, g.dominators entry limit = .ok t → t.sweeps ≤ {n | g.Reaches entry n}.ncard ∧
      ∃ s, g.Underway entry s [] ∧ s.changed = false ∧ s.table = t.table) ∧
    (∀ limit err, g.dominators entry limit = .error err →
      err = .invariant (.dominatorsUnsettled limit)) ∧
    ∀ s n rest a b, g.Underway entry s (n :: rest) → g.Compares s n a b →
      s.table.idom entry = none ∧ (s.table.chain a).getLast? = some entry ∧
        (s.table.chain b).getLast? = some entry := by
  rw [ncard_reaches hg]
  refine ⟨fun limit => dominators_ok hg entry,
    fun limit t h => ⟨sweeps_le hg h, dominators_underway h⟩,
    fun limit err => dominators_error hg, fun s n rest a b hs hab => ?_⟩
  have hinv := (hs.inv hg).1
  obtain ⟨ha, hb⟩ := hinv.compares_visited hg hab
  exact ⟨hinv.idom_entry, hinv.getLast?_chain hg ha, hinv.getLast?_chain hg hb⟩

/-- A line of nodes with edges both ways, and an edge from the first node to the last. What the last
node finds out goes back by one node in each sweep. -/
def shuttle : FlowGraph :=
  ofEdges 6 [(⟨0⟩, ⟨1⟩), (⟨1⟩, ⟨2⟩), (⟨2⟩, ⟨3⟩), (⟨3⟩, ⟨4⟩), (⟨4⟩, ⟨5⟩), (⟨0⟩, ⟨5⟩), (⟨5⟩, ⟨4⟩),
    (⟨4⟩, ⟨3⟩), (⟨3⟩, ⟨2⟩), (⟨2⟩, ⟨1⟩)]

/-- It takes all but one of the six sweeps that it may take, and with fewer it runs out. -/
theorem shuttle_settle :
    {n | shuttle.Reaches ⟨0⟩ n}.ncard = 6 ∧
    (∃ t, shuttle.dominators ⟨0⟩ 6 = .ok t ∧ t.sweeps = 5 ∧
      t.sweeps ≤ {n | shuttle.Reaches ⟨0⟩ n}.ncard) ∧
    shuttle.dominators ⟨0⟩ 4 = .error (.invariant (.dominatorsUnsettled 4)) := by
  have hg : shuttle.Consistent := ofEdges_consistent (by decide)
  obtain ⟨hok, hsweeps, herr, -⟩ := dominators_settle shuttle hg ⟨0⟩
  have hcard : {n | shuttle.Reaches ⟨0⟩ n}.ncard = 6 := by
    rw [ncard_reaches hg]
    decide +kernel
  obtain ⟨t, ht⟩ := hok 6 (Nat.le_of_eq hcard)
  have hfive : (shuttle.dominators ⟨0⟩ 6).map (·.sweeps) = .ok 5 := by decide +kernel
  rw [ht] at hfive
  refine ⟨hcard, ⟨t, ht, Except.ok.inj hfive, (hsweeps 6 t ht).1⟩, ?_⟩
  cases hfour : shuttle.dominators ⟨0⟩ 4 with
  | ok t =>
    have hno : (shuttle.dominators ⟨0⟩ 4).isOk = false := by decide +kernel
    rw [hfour] at hno
    cases hno
  | error err => rw [herr 4 err hfour]

end FlowGraph

end Midend
