import Midend.Proofs.Func.Code
import Midend.Proofs.Func.Verified
import Midend.Proofs.Graph.Frontier

namespace Midend

namespace Func

abbrev Reachable (f : Func) (b : BlockId) : Prop := f.blockGraph.toFlowGraph.Reaches f.entry b

/-- Every path from the entry to `b` leads by way of `a`. -/
abbrev Dominates (f : Func) (a b : BlockId) : Prop :=
  f.blockGraph.toFlowGraph.Dominates f.entry a b

abbrev StrictlyDominates (f : Func) (a b : BlockId) : Prop :=
  f.blockGraph.toFlowGraph.StrictlyDominates f.entry a b

abbrev Edge (f : Func) (b c : BlockId) : Prop := c ∈ f.blockGraph.successorsOf b

end Func

namespace Dominance.IsOf

variable {f : Func} {d : Dominance} {a b c n : BlockId}

theorem dominates_iff (h : d.IsOf f) : d.dominates a b = true ↔ f.Dominates a b := by
  unfold Func.Dominates
  rw [← h.entry]
  exact h.tree.dominates_iff

theorem strictlyDominates_iff (h : d.IsOf f) :
    d.strictlyDominates a b = true ↔ f.StrictlyDominates a b := by
  unfold Func.StrictlyDominates
  rw [← h.entry]
  exact h.tree.strictlyDominates_iff

theorem idom_spec (h : d.IsOf f) (hn : d.idom n = some a) : f.StrictlyDominates a n ∧
    ∀ c, f.StrictlyDominates c n → f.Dominates c a := by
  unfold Func.StrictlyDominates Func.Dominates
  rw [← h.entry]
  exact h.tree.idom_spec hn

theorem idom_exists (h : d.IsOf f) (hab : f.StrictlyDominates a b) : ∃ p, d.idom b = some p := by
  refine h.tree.idom_exists b (h.entry ▸ hab.2.reaches) ?_
  rintro rfl
  rw [h.entry] at hab
  exact hab.1 hab.2.eq_root

theorem above_iff (h : d.IsOf f) (hb : f.Reachable b) :
    d.tree.table.Above b a ↔ f.Dominates a b := by
  unfold Func.Dominates
  rw [← h.entry]
  exact h.tree.above_iff b a (h.entry ▸ hb)

theorem mem_children (h : d.IsOf f) : n ∈ d.children a ↔ d.idom n = some a :=
  h.tree.mem_children (Func.blockGraph_consistent f)

/-- A block dominates itself and what its children in the tree dominate. -/
theorem dominates_iff_children (h : d.IsOf f) (ha : f.Reachable a) :
    f.Dominates a b ↔ b = a ∨ ∃ c ∈ d.children a, f.Dominates c b := by
  constructor
  · intro hab
    have habove := (h.above_iff hab.reaches).2 hab
    rcases Relation.ReflTransGen.cases_tail habove with heq | ⟨c, hbc, hca⟩
    · exact .inl heq.symm
    · exact .inr ⟨c, h.mem_children.2 hca, (h.above_iff hab.reaches).1 hbc⟩
  · rintro (rfl | ⟨c, hc, hcb⟩)
    · exact .refl ha
    · exact (h.idom_spec (h.mem_children.1 hc)).1.2.trans hcb

theorem children_unique (h : d.IsOf f) {c c' : BlockId} (hc : c ∈ d.children a)
    (hc' : c' ∈ d.children a) (hb : f.Dominates c b) (hb' : f.Dominates c' b) : c = c' :=
  h.tree.child_unique (h.mem_children.1 hc) (h.mem_children.1 hc')
    ((h.above_iff hb.reaches).2 hb) ((h.above_iff hb.reaches).2 hb')

end Dominance.IsOf

theorem Func.Linked.edge_of_successor {f : Func} (hf : f.Linked fun _ => False) {b c : BlockId}
    {d : Dominance} (hd : d.IsOf f) (hb : f.Reachable b) (hc : c ∈ f.successors b) :
    f.Edge b c := by
  refine Func.mem_blockGraph_successorsOf.2 ⟨?_, hasBlock_iff.2 (hf.successor_live hc), hc⟩
  exact hasBlock_iff.2 (hf.live_of_isReachable hd (hd.isReachable_iff.2 hb))

namespace Func

variable {f : Func} {a b c : BlockId} {p : List BlockId}

/-- Paths along terminators are paths of the snapshot, as no terminator of a linked function leads
to a dead block. -/
theorem Linked.path_iff_of_live (h : f.Linked fun _ => False) (ha : f.hasBlock a = true) :
    f.toFlowGraph.Path a b p ↔ f.blockGraph.toFlowGraph.Path a b p := by
  constructor
  · intro hp
    suffices hlive : f.hasBlock b = true ∧ f.blockGraph.toFlowGraph.Path a b p from hlive.2
    induction hp with
    | start => exact ⟨ha, .start⟩
    | step _ hs ih =>
      have hlive := hasBlock_iff.2 (h.successor_live hs)
      exact ⟨hlive, ih.2.step (mem_blockGraph_successorsOf.2 ⟨ih.1, hlive, hs⟩)⟩
  · intro hp
    induction hp with
    | start => exact .start
    | step _ hs ih => exact ih.step (mem_blockGraph_successorsOf.1 hs).2.2

theorem Linked.path_iff (h : f.Linked fun _ => False) :
    f.toFlowGraph.Path f.entry b p ↔ f.blockGraph.toFlowGraph.Path f.entry b p :=
  h.path_iff_of_live (hasBlock_iff.2 h.entry_live)

theorem Linked.reaches_iff (h : f.Linked fun _ => False) :
    f.toFlowGraph.Reaches f.entry b ↔ f.Reachable b :=
  exists_congr fun _ => h.path_iff

theorem Linked.dominates_iff (h : f.Linked fun _ => False) (hb : f.Reachable b) :
    (∀ p, f.toFlowGraph.Path f.entry b p → c ∈ p) ↔ f.Dominates c b :=
  ⟨fun hall => ⟨hb, fun p hp => hall p (h.path_iff.2 hp)⟩,
    fun hdom p hp => hdom.onPath p (h.path_iff.1 hp)⟩

theorem Linked.graph_dominates_iff (h : f.Linked fun _ => False) :
    f.toFlowGraph.Dominates f.entry a b ↔ f.Dominates a b := by
  constructor
  · exact fun hdom => (h.dominates_iff (h.reaches_iff.1 hdom.reaches)).1 hdom.onPath
  · exact fun hdom => ⟨h.reaches_iff.2 hdom.reaches, (h.dominates_iff hdom.reaches).2 hdom⟩

end Func

/-- The place in a block after `done` of its instructions. -/
@[ext]
structure Site where
  block : BlockId
  done : Nat
deriving DecidableEq, Repr

namespace Site

def exit (f : Func) (b : BlockId) : Site := ⟨b, (f.instsOf b).length⟩

def Within (f : Func) (s : Site) : Prop := s.done ≤ (f.instsOf s.block).length

def Before (f : Func) (s t : Site) : Prop :=
  (s.block = t.block ∧ s.done ≤ t.done) ∨ f.StrictlyDominates s.block t.block

variable {f : Func} {r s t : Site} {b c : BlockId} {k : Nat}

namespace Before

theorem refl (s : Site) : s.Before f s := .inl ⟨rfl, Nat.le_refl _⟩

theorem trans (h : r.Before f s) (k : s.Before f t) : r.Before f t := by
  rcases h with ⟨hb, hle⟩ | hd
  · rcases k with ⟨hb', hle'⟩ | hd'
    · exact .inl ⟨hb.trans hb', Nat.le_trans hle hle'⟩
    · exact .inr (hb ▸ hd')
  · rcases k with ⟨hb', -⟩ | hd'
    · exact .inr (hb' ▸ hd)
    · exact .inr (.trans_left hd.2 hd')

theorem antisymm (h : s.Before f t) (k : t.Before f s) : s = t := by
  rcases h with ⟨hb, hle⟩ | hd
  · rcases k with ⟨-, hle'⟩ | hd'
    · exact Site.ext hb (Nat.le_antisymm hle hle')
    · exact absurd hb.symm hd'.1
  · rcases k with ⟨hb', -⟩ | hd'
    · exact absurd hb'.symm hd.1
    · exact absurd hd'.2 hd.not_dominates

/-- What comes before the site after an instruction is that site or comes before the one in front
of the instruction. -/
theorem of_succ (h : s.Before f ⟨b, k + 1⟩) : s = ⟨b, k + 1⟩ ∨ s.Before f ⟨b, k⟩ := by
  rcases h with ⟨hb, hle⟩ | hd
  · rcases Nat.lt_or_ge k s.done with hlt | hge
    · exact .inl (Site.ext hb (Nat.le_antisymm hle hlt))
    · exact .inr (.inl ⟨hb, hge⟩)
  · exact .inr (.inr hd)

/-- What comes before the start of a block is that start or comes before the end of each of its
predecessors. -/
theorem of_edge (h : s.Before f ⟨c, 0⟩) (hs : s.Within f) (hb : f.Reachable b) (hc : f.Edge b c) :
    s = ⟨c, 0⟩ ∨ s.Before f (exit f b) := by
  rcases h with ⟨hblock, hle⟩ | hd
  · exact .inl (Site.ext hblock (Nat.le_zero.1 hle))
  · have hdom := hd.of_step hb hc
    by_cases heq : s.block = b
    · refine .inr (.inl ⟨heq, ?_⟩)
      subst heq
      exact hs
    · exact .inr (.inr ⟨heq, hdom⟩)

theorem not_succ_self : ¬ Before f ⟨b, k + 1⟩ ⟨b, k⟩ := by
  rintro (⟨-, hle⟩ | hd)
  · exact absurd hle (Nat.not_succ_le_self k)
  · exact hd.1 rfl

theorem le_done (h : s.Before f t) (hb : s.block = t.block) : s.done ≤ t.done := by
  rcases h with ⟨-, hle⟩ | hd
  · exact hle
  · exact absurd hb hd.1

end Before

end Site

end Midend
