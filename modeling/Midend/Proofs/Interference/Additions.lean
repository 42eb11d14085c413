import Midend.Proofs.Interference

namespace Midend.Interference

/-- A value, a pair of neighbours or a pair that should be equal. -/
inductive Addition where
  | node (v : ValueId)
  | edge (a b : ValueId)
  | equality (a b : ValueId)
deriving DecidableEq, Repr

def add (g : Interference) : Addition → Interference
  | .node v => g.addNode v
  | .edge a b => g.addEdge a b
  | .equality a b => g.addEquality a b

/-- A graph that a sequence of additions makes from the empty one. -/
def Built (g : Interference) : Prop := ∃ additions : List Addition, g = additions.foldl add {}

structure Simple (g : Interference) : Prop where
  symm : ∀ a b, b ∈ g.neighbours a → a ∈ g.neighbours b
  irrefl : ∀ a, a ∉ g.neighbours a

variable {g h : Interference} {a b v w : ValueId}

theorem neighbours_empty (v : ValueId) : v ∉ ({} : Interference).neighbours w :=
  OrderedSet.notMem_empty v

theorem Simple.of_neighbours (hg : g.Simple) (heq : ∀ v, h.neighbours v = g.neighbours v) :
    h.Simple := by
  constructor
  · intro a b hab
    rw [heq] at hab ⊢
    exact hg.symm a b hab
  · intro a ha
    rw [heq] at ha
    exact hg.irrefl a ha

theorem mem_neighbours_addEdge (hne : a ≠ b) : w ∈ (g.addEdge a b).neighbours v ↔
    (v = a ∧ w = b) ∨ (v = b ∧ w = a) ∨ w ∈ g.neighbours v := by
  rw [addEdge, if_neg hne, mem_neighbours_link, mem_neighbours_link, or_left_comm]

theorem Simple.addEdge (hg : g.Simple) (a b : ValueId) : (g.addEdge a b).Simple := by
  by_cases hne : a = b
  · rw [Interference.addEdge, if_pos hne]
    exact hg
  · constructor
    · intro v w hw
      rw [mem_neighbours_addEdge hne] at hw ⊢
      rcases hw with ⟨rfl, rfl⟩ | ⟨rfl, rfl⟩ | hw
      · exact .inr (.inl ⟨rfl, rfl⟩)
      · exact .inl ⟨rfl, rfl⟩
      · exact .inr (.inr (hg.symm v w hw))
    · intro v hv
      rw [mem_neighbours_addEdge hne] at hv
      rcases hv with ⟨rfl, hb⟩ | ⟨rfl, ha⟩ | hv
      · exact hne hb
      · exact hne ha.symm
      · exact hg.irrefl v hv

theorem Simple.add (hg : g.Simple) (addition : Addition) : (g.add addition).Simple := by
  cases addition with
  | node v => exact hg.of_neighbours (neighbours_addNode g v)
  | edge a b => exact hg.addEdge a b
  | equality a b =>
    refine hg.of_neighbours fun v => ?_
    rw [Interference.add, neighbours, adjacency_addEquality]
    rfl

theorem Built.simple (hg : g.Built) : g.Simple := by
  obtain ⟨additions, rfl⟩ := hg
  suffices hrun : ∀ g : Interference, g.Simple → (additions.foldl add g).Simple from
    hrun {} ⟨fun a b hb => absurd hb (neighbours_empty b), fun a => neighbours_empty a⟩
  induction additions with
  | nil => exact fun _ hg => hg
  | cons addition additions ih => exact fun g hg => ih _ (hg.add addition)

theorem Simple.edge_iff (hg : g.Simple) : g.Edge a b ↔ g.interferes a b = true := by
  rw [interferes, OrderedSet.contains_iff_mem]
  exact ⟨fun h => h.1, fun h => ⟨h, hg.symm a b h⟩⟩

end Midend.Interference
