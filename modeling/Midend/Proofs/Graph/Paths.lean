import Mathlib.Logic.Relation
import Mathlib.Tactic.Common
import Midend.Graph.Basic

namespace Midend.FlowGraph

/-- The nodes of a path from `a`, in order; the last one is its end. -/
inductive Path (g : FlowGraph) (a : BlockId) : BlockId → List BlockId → Prop where
  | start : Path g a a [a]
  | step {b c : BlockId} {p : List BlockId} :
      Path g a b p → c ∈ g.successors b → Path g a c (p ++ [c])

def Reaches (g : FlowGraph) (a b : BlockId) : Prop := ∃ p, g.Path a b p

/-- From `r`, `b` can be reached, and only by way of `a`. -/
structure Dominates (g : FlowGraph) (r a b : BlockId) : Prop where
  reaches : g.Reaches r b
  onPath : ∀ p, g.Path r b p → a ∈ p

def StrictlyDominates (g : FlowGraph) (r a b : BlockId) : Prop := a ≠ b ∧ g.Dominates r a b

variable {g : FlowGraph} {a b c d r x : BlockId} {p q : List BlockId}

namespace Path

theorem end_mem (h : g.Path a b p) : b ∈ p := by
  cases h <;> simp

theorem start_mem (h : g.Path a b p) : a ∈ p := by
  induction h with
  | start => simp
  | step _ _ ih => exact List.mem_append_left _ ih

theorem append (h : g.Path a b p) (k : g.Path b c q) : g.Path a c (p ++ q.tail) := by
  induction k with
  | start => simpa using h
  | @step x y q k hy ih =>
    have hq : q ≠ [] := List.ne_nil_of_mem k.start_mem
    rw [List.tail_append_of_ne_nil hq, ← List.append_assoc]
    exact ih.step hy

theorem split (h : g.Path a b p) (hx : x ∈ p) :
    (∃ q, g.Path a x q ∧ q ⊆ p) ∧ ∃ q, g.Path x b q ∧ q ⊆ p := by
  induction h with
  | start =>
    obtain rfl := List.mem_singleton.1 hx
    exact ⟨⟨_, .start, fun _ h => h⟩, ⟨_, .start, fun _ h => h⟩⟩
  | @step b c p h hc ih =>
    rcases List.mem_append.1 hx with hx | hx
    · obtain ⟨⟨q, hq, hqp⟩, ⟨q', hq', hqp'⟩⟩ := ih hx
      refine ⟨⟨q, hq, fun y hy => List.mem_append_left _ (hqp hy)⟩, ⟨q' ++ [c], hq'.step hc, ?_⟩⟩
      intro y hy
      rcases List.mem_append.1 hy with hy | hy
      · exact List.mem_append_left _ (hqp' hy)
      · exact List.mem_append_right _ hy
    · obtain rfl := List.mem_singleton.1 hx
      refine ⟨⟨_, h.step hc, fun _ h => h⟩, ⟨[x], .start, ?_⟩⟩
      intro y hy
      exact List.mem_append_right _ hy

theorem notMem_append_tail (hp : x ∉ p) (hq : x ∉ q) : x ∉ p ++ q.tail := by
  intro h
  rcases List.mem_append.1 h with h | h
  · exact hp h
  · exact hq (List.mem_of_mem_tail h)

theorem mono {h : FlowGraph} (hp : g.Path a b p)
    (hedges : ∀ n s, s ∈ g.successors n → s ∈ h.successors n) : h.Path a b p := by
  induction hp with
  | start => exact .start
  | step _ hc ih => exact ih.step (hedges _ _ hc)

end Path

namespace Reaches

theorem refl (a : BlockId) : g.Reaches a a := ⟨_, .start⟩

theorem step (h : g.Reaches a b) (hc : c ∈ g.successors b) : g.Reaches a c := by
  obtain ⟨p, hp⟩ := h
  exact ⟨_, hp.step hc⟩

theorem of_mem_path (h : g.Path a b p) (hx : x ∈ p) : g.Reaches a x := by
  obtain ⟨⟨q, hq, -⟩, -⟩ := h.split hx
  exact ⟨q, hq⟩

theorem induction_on {motive : BlockId → Prop} (h : g.Reaches a b) (start : motive a)
    (step : ∀ b c, g.Reaches a b → motive b → c ∈ g.successors b → motive c) : motive b := by
  obtain ⟨p, hp⟩ := h
  induction hp with
  | start => exact start
  | step hp hc ih => exact step _ _ ⟨_, hp⟩ ih hc

end Reaches

theorem reaches_iff : g.Reaches a b ↔ Relation.ReflTransGen (fun b c => c ∈ g.successors b) a b := by
  constructor
  · exact fun h => h.induction_on .refl fun _ _ _ ih hc => ih.tail hc
  · intro h
    induction h with
    | refl => exact .refl a
    | tail _ hc ih => exact ih.step hc

namespace Dominates

theorem refl (h : g.Reaches r a) : g.Dominates r a a := ⟨h, fun _ hp => hp.end_mem⟩

theorem root (h : g.Reaches r a) : g.Dominates r r a := ⟨h, fun _ hp => hp.start_mem⟩

theorem reaches_left (h : g.Dominates r a b) : g.Reaches r a := by
  obtain ⟨p, hp⟩ := h.reaches
  exact .of_mem_path hp (h.onPath p hp)

theorem trans (h : g.Dominates r a b) (k : g.Dominates r b c) : g.Dominates r a c := by
  refine ⟨k.reaches, fun p hp => ?_⟩
  obtain ⟨⟨q, hq, hqp⟩, -⟩ := hp.split (k.onPath p hp)
  exact hqp (h.onPath q hq)

theorem eq_root (h : g.Dominates r a r) : a = r := by
  simpa using h.onPath _ .start

theorem antisymm (h : g.Dominates r a b) (k : g.Dominates r b a) : a = b := by
  by_contra hne
  -- A path that ends in one of the two meets the other one before, so no path meets either.
  have avoid : ∀ x p, g.Path r x p → a ∉ p ∧ b ∉ p := by
    intro x p hp
    induction hp with
    | start =>
      simp only [List.mem_singleton]
      refine ⟨fun ha => ?_, fun hb => ?_⟩
      · subst ha
        exact hne (k.eq_root).symm
      · subst hb
        exact hne h.eq_root
    | @step x y p hp hy ih =>
      simp only [List.mem_append, List.mem_singleton]
      refine ⟨?_, ?_⟩
      · rintro (ha | rfl)
        · exact ih.1 ha
        · rcases List.mem_append.1 (k.onPath _ (hp.step hy)) with hb | hb
          · exact ih.2 hb
          · exact hne (List.mem_singleton.1 hb).symm
      · rintro (hb | rfl)
        · exact ih.2 hb
        · rcases List.mem_append.1 (h.onPath _ (hp.step hy)) with ha | ha
          · exact ih.1 ha
          · exact hne (List.mem_singleton.1 ha)
  obtain ⟨p, hp⟩ := h.reaches
  exact (avoid _ _ hp).1 (h.onPath p hp)

/-- A node that dominates `c` and is not `c` dominates the predecessors of `c`. -/
theorem of_step (h : g.Dominates r a c) (hne : a ≠ c) (hb : g.Reaches r b)
    (hc : c ∈ g.successors b) : g.Dominates r a b := by
  refine ⟨hb, fun p hp => ?_⟩
  rcases List.mem_append.1 (h.onPath _ (hp.step hc)) with ha | ha
  · exact ha
  · exact absurd (List.mem_singleton.1 ha) hne

theorem exists_avoiding (ha : g.Reaches r b) (h : ¬ g.Dominates r a b) :
    ∃ p, g.Path r b p ∧ a ∉ p := by
  by_contra hno
  refine h ⟨ha, fun p hp => ?_⟩
  by_contra hmem
  exact hno ⟨p, hp, hmem⟩

/-- The dominators of one node form a chain. -/
theorem total (h : g.Dominates r a c) (k : g.Dominates r b c) :
    g.Dominates r a b ∨ g.Dominates r b a := by
  by_contra hno
  obtain ⟨hab, hba⟩ := not_or.1 hno
  have hne : a ≠ b := by
    rintro rfl
    exact hab (refl h.reaches_left)
  obtain ⟨pb, hpb, hapb⟩ := exists_avoiding k.reaches_left hab
  obtain ⟨pa, hpa, hbpa⟩ := exists_avoiding h.reaches_left hba
  -- Reaching `a` around `b` and `b` around `a`, any node is reached around one of them.
  have avoid : ∀ x, g.Reaches r x → ∃ p, g.Path r x p ∧ (a ∉ p ∨ b ∉ p) := by
    rintro x ⟨p, hp⟩
    induction hp with
    | start =>
      refine ⟨_, .start, ?_⟩
      by_cases har : a = r
      · refine .inr fun hb => hne ?_
        exact har.trans (List.mem_singleton.1 hb).symm
      · exact .inl fun ha => har (List.mem_singleton.1 ha)
    | @step x y p _ hy ih =>
      obtain ⟨q, hq, hav⟩ := ih
      by_cases hya : y = a
      · exact ⟨pa, hya ▸ hpa, .inr hbpa⟩
      · by_cases hyb : y = b
        · exact ⟨pb, hyb ▸ hpb, .inl hapb⟩
        · refine ⟨_, hq.step hy, hav.imp ?_ ?_⟩
          · intro ha hm
            rcases List.mem_append.1 hm with hm | hm
            · exact ha hm
            · exact hya (List.mem_singleton.1 hm).symm
          · intro hb hm
            rcases List.mem_append.1 hm with hm | hm
            · exact hb hm
            · exact hyb (List.mem_singleton.1 hm).symm
  obtain ⟨p, hp, hav⟩ := avoid c h.reaches
  rcases hav with hav | hav
  · exact hav (h.onPath p hp)
  · exact hav (k.onPath p hp)

end Dominates

namespace StrictlyDominates

theorem trans_left (h : g.Dominates r a b) (k : g.StrictlyDominates r b c) :
    g.StrictlyDominates r a c := by
  refine ⟨?_, h.trans k.2⟩
  rintro rfl
  exact k.1 (k.2.antisymm h)

theorem not_dominates (h : g.StrictlyDominates r a b) : ¬ g.Dominates r b a :=
  fun k => h.1 (h.2.antisymm k)

theorem of_step (h : g.StrictlyDominates r a c) (hb : g.Reaches r b) (hc : c ∈ g.successors b) :
    g.Dominates r a b := h.2.of_step h.1 hb hc

end StrictlyDominates

end Midend.FlowGraph
