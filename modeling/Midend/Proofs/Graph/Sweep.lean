import Mathlib.Data.List.Perm.Subperm
import Midend.Proofs.Graph.IdomTable
import Midend.Proofs.Graph.Preorder

/-!
Sweeps over the preorder. In place of descending sets of dominators the table keeps one chain for
each node. The invariant of a sweep says that the chain of a visited node has all its dominators on
it, and that from every node on the chain control can come back down without leaving the later part
of the preorder; the second half is what lets a link move while the first half survives.
-/

namespace Midend.FlowGraph

variable {g : FlowGraph} {entry n x a d : BlockId} {t : IdomTable} {visited : IndexSet}

/-- The place of a node in the preorder from `entry`. -/
def place (g : FlowGraph) (entry x : BlockId) : Nat := (g.preorder entry).idxOf x

/-- What holds between two steps of a sweep. -/
structure SweepInv (g : FlowGraph) (entry : BlockId) (t : IdomTable) (visited : IndexSet) :
    Prop where
  size : t.size = max g.size (entry.index + 1)
  entry_visited : visited.contains entry.index = true
  reached : ∀ x : BlockId, visited.contains x.index = true → g.Reaches entry x
  linked : ∀ x : BlockId, visited.contains x.index = true → x ≠ entry → ∃ d, t.idom x = some d
  link : ∀ x d : BlockId, t.idom x = some d → x ≠ entry ∧ visited.contains x.index = true ∧
    visited.contains d.index = true ∧ g.place entry d < g.place entry x
  complete : ∀ x a : BlockId, visited.contains x.index = true → g.Dominates entry a x →
    t.Above x a
  below : ∀ x a : BlockId, visited.contains x.index = true → t.Above x a →
    ∃ p, g.Path a x p ∧ ∀ y ∈ p, g.place entry a ≤ g.place entry y

theorem length_le_of_index_lt {bs : List BlockId} {n : Nat} (hnd : bs.Nodup)
    (hlt : ∀ b ∈ bs, b.index < n) : bs.length ≤ n := by
  have hmap : (bs.map Handle.index).Nodup := hnd.map fun _ _ h => Handle.ext h
  have hsub : bs.map Handle.index ⊆ List.range n := by
    intro i hi
    obtain ⟨b, hb, rfl⟩ := List.mem_map.1 hi
    exact List.mem_range.2 (hlt b hb)
  have hle := (List.subperm_of_subset hmap hsub).length_le
  simpa using hle

theorem length_preorder_le (hg : g.Consistent) (entry : BlockId) :
    (g.preorder entry).length ≤ max g.size (entry.index + 1) := by
  refine length_le_of_index_lt (preorder_nodup hg.below entry) fun x hx => ?_
  obtain ⟨p, hp⟩ := (mem_preorder hg.below entry x).1 hx
  cases hp with
  | start => omega
  | step _ hs =>
    have := hg.below _ _ hs
    omega

namespace SweepInv

theorem rank_lt (h : g.SweepInv entry t visited) :
    ∀ x d, t.idom x = some d → g.place entry d < g.place entry x :=
  fun x d hx => (h.link x d hx).2.2.2

theorem place_le (hg : g.Consistent) (h : g.SweepInv entry t visited)
    (hx : visited.contains x.index = true) : g.place entry x ≤ t.size := by
  have hmem := (mem_preorder hg.below entry x).2 (h.reached x hx)
  have hlt := List.idxOf_lt_length_of_mem hmem
  have hle := length_preorder_le hg entry
  rw [h.size]
  unfold place
  omega

theorem above_visited (h : g.SweepInv entry t visited) (hx : visited.contains x.index = true)
    (ha : t.Above x a) : visited.contains a.index = true := by
  induction ha with
  | refl => exact hx
  | tail _ hd _ => exact (h.link _ _ hd).2.2.1

theorem above_entry (h : g.SweepInv entry t visited) (hx : visited.contains x.index = true) :
    t.Above x entry :=
  h.complete x entry hx (.root (h.reached x hx))

theorem idom_entry (h : g.SweepInv entry t visited) : t.idom entry = none := by
  cases hd : t.idom entry with
  | none => rfl
  | some d => exact absurd rfl (h.link _ _ hd).1

theorem commonDominator_spec (hg : g.Consistent) (h : g.SweepInv entry t visited) {p q : BlockId}
    (hp : visited.contains p.index = true) (hq : visited.contains q.index = true) :
    t.Above p (t.commonDominator p q) ∧ t.Above q (t.commonDominator p q) ∧
      ∀ z, t.Above p z → t.Above q z → t.Above (t.commonDominator p q) z :=
  IdomTable.commonDominator_spec h.rank_lt (h.place_le hg hp) (h.place_le hg hq) (h.above_entry hp)
    (h.above_entry hq)

/-- Folding the common dominator over visited nodes gives their lowest common ancestor. -/
theorem foldl_commonDominator (hg : g.Consistent) (h : g.SweepInv entry t visited)
    {ps : List BlockId} (hps : ∀ p ∈ ps, visited.contains p.index = true) {q : BlockId}
    (hq : visited.contains q.index = true) :
    ∃ c, ps.foldl (fun best p => match best with
        | none => some p
        | some q => some (t.commonDominator q p)) (some q) = some c ∧
      t.Above q c ∧ (∀ p ∈ ps, t.Above p c) ∧
      ∀ z, t.Above q z → (∀ p ∈ ps, t.Above p z) → t.Above c z := by
  induction ps generalizing q with
  | nil => exact ⟨q, rfl, .refl _, by simp, fun z hz _ => hz⟩
  | cons p ps ih =>
    have hp : visited.contains p.index = true := hps p List.mem_cons_self
    obtain ⟨hqm, hpm, hlow⟩ := h.commonDominator_spec hg hq hp
    obtain ⟨c, hc, hmc, hpsc, hclow⟩ :=
      ih (fun p' hp' => hps p' (List.mem_cons_of_mem _ hp')) (h.above_visited hq hqm)
    refine ⟨c, hc, hqm.trans hmc, ?_, ?_⟩
    · intro p' hp'
      rcases List.mem_cons.1 hp' with rfl | hp'
      · exact hpm.trans hmc
      · exact hpsc p' hp'
    · intro z hqz hz
      refine hclow z (hlow z hqz (hz p List.mem_cons_self)) ?_
      exact fun p' hp' => hz p' (List.mem_cons_of_mem _ hp')

/-- A node with a visited predecessor has a candidate: the lowest common ancestor of its visited
predecessors. -/
theorem candidate_spec (hg : g.Consistent) {s : Sweep} (h : g.SweepInv entry s.table s.visited)
    {y : BlockId} (hy : n ∈ g.successors y) (hv : s.visited.contains y.index = true) :
    ∃ d, g.candidate s n = some d ∧
      (∀ p, n ∈ g.successors p → s.visited.contains p.index = true → s.table.Above p d) ∧
      ∀ z, (∀ p, n ∈ g.successors p → s.visited.contains p.index = true → s.table.Above p z) →
        s.table.Above d z := by
  have hmem : ∀ p, p ∈ (g.predecessors n).filter (fun p => s.visited.contains p.index) ↔
      n ∈ g.successors p ∧ s.visited.contains p.index = true := by
    intro p
    rw [List.mem_filter, hg.converse]
  unfold candidate
  -- `y` is a visited predecessor, so there is one to start from.
  cases hps : (g.predecessors n).filter (fun p => s.visited.contains p.index) with
  | nil =>
    have := (hmem y).2 ⟨hy, hv⟩
    simp [hps] at this
  | cons q ps =>
    rw [hps] at hmem
    have hvis : ∀ p ∈ q :: ps, s.visited.contains p.index = true := fun p hp => ((hmem p).1 hp).2
    obtain ⟨c, hc, hqc, hpsc, hlow⟩ := h.foldl_commonDominator hg
      (fun p hp => hvis p (List.mem_cons_of_mem _ hp)) (hvis q List.mem_cons_self)
    refine ⟨c, hc, ?_, ?_⟩
    · intro p hp hpv
      rcases List.mem_cons.1 ((hmem p).2 ⟨hp, hpv⟩) with rfl | hp'
      · exact hqc
      · exact hpsc p hp'
    · intro z hz
      have hz' : ∀ p ∈ q :: ps, s.table.Above p z := fun p hp =>
        hz p ((hmem p).1 hp).1 ((hmem p).1 hp).2
      exact hlow z (hz' q List.mem_cons_self) fun p hp => hz' p (List.mem_cons_of_mem _ hp)

section Relink

variable {y : BlockId} (h : g.SweepInv entry t visited) (hn : g.Reaches entry n)
  (hsize : n.index < t.size) (hy : n ∈ g.successors y) (hyv : visited.contains y.index = true)
  (hyn : g.place entry y < g.place entry n)
  (hd : ∀ p, n ∈ g.successors p → visited.contains p.index = true → t.Above p d)
  (hlow : ∀ z, (∀ p, n ∈ g.successors p → visited.contains p.index = true → t.Above p z) →
    t.Above d z)

include h

include hlow in
theorem above_of_dominates (ha : g.Dominates entry a n) (hne : a ≠ n) : t.Above d a := by
  refine hlow a fun p hp hpv => h.complete p a hpv ?_
  exact ha.of_step hne (h.reached p hpv) hp

include hy hyv hyn hd in
theorem exists_path_to (ha : t.Above d a) :
    ∃ p, g.Path a n p ∧ ∀ z ∈ p, g.place entry a ≤ g.place entry z := by
  obtain ⟨p, hp, hpl⟩ := h.below y a hyv ((hd y hy hyv).trans ha)
  refine ⟨_, hp.step hy, fun z hz => ?_⟩
  rcases List.mem_append.1 hz with hz | hz
  · exact hpl z hz
  · rw [List.mem_singleton.1 hz]
    have := hpl y hp.end_mem
    omega

/-- From `n` control comes down to `n` and to any visited node that has `n` on its chain. -/
theorem exists_path_from (hx : x = n ∨ visited.contains x.index = true) (hxn : t.Above x n) :
    ∃ p, g.Path n x p ∧ ∀ z ∈ p, g.place entry n ≤ g.place entry z := by
  rcases hx with rfl | hx
  · exact ⟨_, .start, fun z hz => by rw [List.mem_singleton.1 hz]⟩
  · exact h.below x n hx hxn

include hy hyv hyn hd in
theorem place_lt_of_common : g.place entry d < g.place entry n :=
  Nat.lt_of_le_of_lt ((hd y hy hyv).rank_le h.rank_lt) hyn

include hn hsize hy hyv hyn hd hlow in
/-- All dominators are still on the chain. -/
theorem relink_complete (hx : x = n ∨ visited.contains x.index = true)
    (ha : g.Dominates entry a x) :
    IdomTable.Above (t.setIfInBounds n.index (some d)) x a := by
  have hdn : g.place entry d < g.place entry n := h.place_lt_of_common hy hyv hyn hd
  have ht : ∀ x, IdomTable.idom (t.setIfInBounds n.index (some d)) x =
      if x = n then some d else t.idom x := fun x => IdomTable.idom_setIfInBounds hsize x _
  have habove : ∀ a, a ≠ n → g.Dominates entry a n → t.Above d a := fun a hne ha =>
    h.above_of_dominates hlow ha hne
  by_cases hxa : a = x
  · exact hxa ▸ .refl _
  by_cases hxn : x = n
  · subst hxn
    exact IdomTable.above_relink h.rank_lt hdn ht (.refl _) (habove a hxa ha)
  have hxa' : t.Above x a := h.complete x a (hx.resolve_left hxn) ha
  -- Only the chains through `n` change.
  by_cases hup : t.Above x n
  · rcases hup.total hxa' with hna | han
    · by_cases hdom : g.Dominates entry a n
      · by_cases hane : a = n
        · exact IdomTable.above_relink_of_below h.rank_lt hdn ht hxa' (.inl (hane ▸ .refl _))
        · exact IdomTable.above_relink h.rank_lt hdn ht hup (habove a hane hdom)
      · -- Around `a` to `n`, and from there down to `x` by later nodes only.
        obtain ⟨p, hp, hap⟩ := Dominates.exists_avoiding hn hdom
        obtain ⟨q, hq, hql⟩ := h.exists_path_from hx hup
        have hlt : g.place entry a < g.place entry n := by
          rcases hna.cases_idom with rfl | ⟨e, he, hea⟩
          · exact absurd (.refl hn) hdom
          · exact Nat.lt_of_le_of_lt (hea.rank_le h.rank_lt) (h.rank_lt _ _ he)
        have haq : a ∉ q := by
          intro haq
          have := hql a haq
          omega
        exact absurd (ha.onPath _ (hp.append hq)) (Path.notMem_append_tail hap haq)
    · exact IdomTable.above_relink_of_below h.rank_lt hdn ht hxa' (.inl han)
  · exact IdomTable.above_relink_of_below h.rank_lt hdn ht hxa' (.inr hup)

include hsize hy hyv hyn hd in
/-- From what stands on the chain control comes down by later nodes only. -/
theorem relink_below (hx : x = n ∨ visited.contains x.index = true)
    (ha : IdomTable.Above (t.setIfInBounds n.index (some d)) x a) :
    ∃ p, g.Path a x p ∧ ∀ z ∈ p, g.place entry a ≤ g.place entry z := by
  have ht : ∀ x, IdomTable.idom (t.setIfInBounds n.index (some d)) x =
      if x = n then some d else t.idom x := fun x => IdomTable.idom_setIfInBounds hsize x _
  rcases IdomTable.above_of_relink h.rank_lt (h.place_lt_of_common hy hyv hyn hd) ht ha with
    hold | ⟨hxn, hda⟩
  · rcases hx with rfl | hxv
    · rcases hold.cases_idom with rfl | ⟨e, he, -⟩
      · exact ⟨_, .start, fun z hz => by rw [List.mem_singleton.1 hz]⟩
      · exact h.below x a (h.link x e he).2.1 hold
    · exact h.below x a hxv hold
  · obtain ⟨p, hp, hpl⟩ := h.exists_path_to hy hyv hyn hd hda
    obtain ⟨q, hq, hql⟩ := h.exists_path_from hx hxn
    refine ⟨_, hp.append hq, fun z hz => ?_⟩
    rcases List.mem_append.1 hz with hz | hz
    · exact hpl z hz
    · have h1 := hql z (List.mem_of_mem_tail hz)
      have h2 := hpl n hp.end_mem
      omega

include hn hsize hy hyv hyn hd hlow in
theorem relink (hne : n ≠ entry) :
    g.SweepInv entry (t.setIfInBounds n.index (some d)) (visited.insert n.index) := by
  have hdv : visited.contains d.index = true := h.above_visited hyv (hd y hy hyv)
  have ht : ∀ x, IdomTable.idom (t.setIfInBounds n.index (some d)) x =
      if x = n then some d else t.idom x := fun x => IdomTable.idom_setIfInBounds hsize x _
  have hins : ∀ x : BlockId, (visited.insert n.index).contains x.index = true ↔
      x = n ∨ visited.contains x.index = true := fun x => IndexSet.contains_insert_index
  refine ⟨?_, ?_, ?_, ?_, ?_, ?_, ?_⟩
  · rw [Array.size_setIfInBounds, h.size]
  · exact (hins entry).2 (.inr h.entry_visited)
  · intro x hx
    rcases (hins x).1 hx with rfl | hx
    · exact hn
    · exact h.reached x hx
  · intro x hx hxe
    rw [ht]
    by_cases hxn : x = n
    · exact ⟨d, if_pos hxn⟩
    · rw [if_neg hxn]
      exact h.linked x (((hins x).1 hx).resolve_left hxn) hxe
  · intro x e hx
    rw [ht] at hx
    by_cases hxn : x = n
    · rw [if_pos hxn] at hx
      obtain rfl := Option.some.inj hx
      exact ⟨hxn ▸ hne, (hins x).2 (.inl hxn), (hins d).2 (.inr hdv),
        hxn ▸ h.place_lt_of_common hy hyv hyn hd⟩
    · rw [if_neg hxn] at hx
      obtain ⟨h1, h2, h3, h4⟩ := h.link x e hx
      exact ⟨h1, (hins x).2 (.inr h2), (hins e).2 (.inr h3), h4⟩
  · exact fun x a hx ha => h.relink_complete hn hsize hy hyv hyn hd hlow ((hins x).1 hx) ha
  · exact fun x a hx ha => h.relink_below hsize hy hyv hyn hd ((hins x).1 hx) ha

end Relink

end SweepInv

end Midend.FlowGraph
