import Mathlib.Data.Set.Card
import Mathlib.Data.Sym.Sym2
import Midend.Proofs.Interference.Equalities
import Midend.Slots

namespace Midend.Interference

variable {g h : Interference} {a b v w : ValueId} {additions others : List Addition}
  {addition : Addition}

theorem mem_neighbours_add : w ∈ (g.add addition).neighbours v ↔
    (v ≠ w ∧ (addition = .edge v w ∨ addition = .edge w v)) ∨ w ∈ g.neighbours v := by
  cases addition with
  | node u => simp [add, neighbours_addNode]
  | edge a b =>
    by_cases hab : a = b
    · subst hab
      rw [add, addEdge, if_pos rfl]
      simp only [Addition.edge.injEq]
      grind
    · rw [add, mem_neighbours_addEdge hab]
      simp only [Addition.edge.injEq]
      grind
  | equality a b => simp [add, neighbours, adjacency_addEquality]

theorem contains_add : (g.add addition).contains v = true ↔
    (addition = .node v ∨ ∃ w, w ≠ v ∧ (addition = .edge v w ∨ addition = .edge w v)) ∨
      g.contains v = true := by
  cases addition with
  | node u =>
    rw [add, contains_addNode]
    simp [eq_comm (a := u)]
  | edge a b =>
    simp only [Addition.edge.injEq, reduceCtorEq, false_or]
    by_cases hab : a = b
    · rw [add, addEdge, if_pos hab]
      grind
    · rw [add, addEdge, if_neg hab, contains_link, contains_link]
      constructor
      · rintro (rfl | rfl | hv)
        · exact .inl ⟨a, hab, .inr ⟨rfl, rfl⟩⟩
        · exact .inl ⟨b, Ne.symm hab, .inl ⟨rfl, rfl⟩⟩
        · exact .inr hv
      · rintro (⟨w, -, ⟨rfl, -⟩ | ⟨-, rfl⟩⟩ | hv)
        · exact .inr (.inl rfl)
        · exact .inl rfl
        · exact .inr (.inr hv)
  | equality a b => simp [add, contains, adjacency_addEquality]

theorem mem_neighbours_ofAdditions : w ∈ (ofAdditions additions).neighbours v ↔
    v ≠ w ∧ (.edge v w ∈ additions ∨ .edge w v ∈ additions) := by
  induction additions using List.reverseRecOn with
  | nil =>
    have hnone : w ∉ (ofAdditions []).neighbours v := neighbours_empty w
    simpa using hnone
  | append_singleton additions addition ih =>
    rw [ofAdditions_concat, mem_neighbours_add, ih]
    simp only [List.mem_append, List.mem_singleton, eq_comm (a := addition)]
    grind

theorem contains_ofAdditions : (ofAdditions additions).contains v = true ↔
    .node v ∈ additions ∨ ∃ w, w ≠ v ∧ (.edge v w ∈ additions ∨ .edge w v ∈ additions) := by
  induction additions using List.reverseRecOn with
  | nil => simp [ofAdditions, contains, OrderedMap.contains]
  | append_singleton additions addition ih =>
    rw [ofAdditions_concat, contains_add, ih]
    simp only [List.mem_append, List.mem_singleton, eq_comm (a := addition)]
    grind

/-- The nodes and their neighbours are all there is to the table of neighbours. -/
theorem adjacency_ext (hnode : ∀ v, h.contains v = true ↔ g.contains v = true)
    (hneighbour : ∀ v w, w ∈ h.neighbours v ↔ w ∈ g.neighbours v) : h.adjacency = g.adjacency := by
  refine OrderedMap.ext (OrderedMap.toList_eq_of_get? fun v => ?_)
  have hsame : h.neighbours v = g.neighbours v := OrderedSet.ext
    (OrderedSet.eq_of_mem_iff (h.neighbours v).ascending (g.neighbours v).ascending (hneighbour v))
  have hv := hnode v
  rw [contains_iff, contains_iff] at hv
  cases hh : h.adjacency.get? v with
  | none =>
    cases hg : g.adjacency.get? v with
    | none => rfl
    | some s =>
      obtain ⟨t, ht⟩ := hv.2 ⟨s, hg⟩
      rw [hh] at ht
      cases ht
  | some t =>
    obtain ⟨s, hs⟩ := hv.1 ⟨t, hh⟩
    rw [neighbours, neighbours, hh, hs] at hsame
    rw [hs]
    exact congrArg some hsame

/-- An assignment goes by neighbours and classes. -/
theorem allocate_congr (hadjacency : h.adjacency = g.adjacency) (hclasses : h.classes = g.classes)
    (coalesce : Bool) : h.allocate coalesce = g.allocate coalesce := by
  obtain ⟨adjacency, parents⟩ := g
  obtain ⟨adjacency', parents'⟩ := h
  obtain rfl : adjacency' = adjacency := hadjacency
  rw [allocate, allocate, hclasses]
  rfl

theorem classes_congr (hadjacency : h.adjacency = g.adjacency) (hroot : h.root = g.root) :
    h.classes = g.classes := by
  rw [classes, classes, nodes, nodes, hadjacency, hroot]

def pairs (g : Interference) : List (ValueId × ValueId) :=
  g.adjacency.entries.flatMap fun e => e.2.toList.map (e.1, ·)

theorem mem_pairs {e : ValueId × ValueId} : e ∈ g.pairs ↔ e.2 ∈ g.neighbours e.1 := by
  simp only [pairs, List.mem_flatMap, List.mem_map, neighbours]
  constructor
  · rintro ⟨entry, hentry, w, hw, rfl⟩
    have hget := OrderedMap.get?_eq_some_iff.2 hentry
    rw [hget]
    exact hw
  · intro he
    cases hget : g.adjacency.get? e.1 with
    | none =>
      rw [hget] at he
      exact absurd he (OrderedSet.notMem_empty e.2)
    | some s =>
      rw [hget] at he
      exact ⟨(e.1, s), OrderedMap.get?_eq_some_iff.1 hget, e.2, he, rfl⟩

theorem pairs_nodup (g : Interference) : g.pairs.Nodup := by
  refine List.nodup_flatMap.2 ⟨fun e _ => ?_, ?_⟩
  · exact e.2.toList_nodup.map fun _ _ h => (Prod.mk.inj h).2
  · refine g.adjacency.ascending.imp fun {d e} hde x hd he => ?_
    obtain ⟨v, -, rfl⟩ := List.mem_map.1 hd
    obtain ⟨w, -, hw⟩ := List.mem_map.1 he
    have hkey : e.1 = d.1 := (Prod.mk.inj hw).1
    simp [hkey] at hde

theorem length_pairs (g : Interference) :
    g.pairs.length = g.adjacency.values.foldr (fun s n => s.size + n) 0 := by
  rw [pairs, OrderedMap.values]
  induction g.adjacency.entries with
  | nil => rfl
  | cons e es ih =>
    rw [List.flatMap_cons, List.length_append, List.length_map, List.map_cons, List.foldr_cons, ih]
    rfl

theorem Simple.length_pairs (hg : g.Simple) :
    g.pairs.length = 2 * (g.pairs.filter fun e => e.1 < e.2).length := by
  have hdown : (g.pairs.filter fun e => !decide (e.1 < e.2)).Perm
      ((g.pairs.filter fun e => e.1 < e.2).map Prod.swap) := by
    refine (List.perm_ext_iff_of_nodup (g.pairs_nodup.filter _)
      ((g.pairs_nodup.filter _).map Prod.swap_injective)).2 fun e => ?_
    rw [List.mem_filter, List.mem_map, mem_pairs]
    constructor
    · rintro ⟨hmem, hge⟩
      have hne : e.1 ≠ e.2 := fun heq => hg.irrefl e.2 (heq ▸ hmem)
      have hnot : ¬ e.1 < e.2 := by simpa using hge
      have hlt : e.2 < e.1 := Nat.lt_of_le_of_ne (Nat.le_of_not_lt hnot)
        fun heq => hne (Handle.ext heq.symm)
      refine ⟨e.swap, List.mem_filter.2 ⟨mem_pairs.2 (hg.symm _ _ hmem), ?_⟩, e.swap_swap⟩
      simpa using hlt
    · rintro ⟨d, hd, rfl⟩
      obtain ⟨hmem, hlt⟩ := List.mem_filter.1 hd
      refine ⟨hg.symm _ _ (mem_pairs.1 hmem), ?_⟩
      have hle : ¬ d.2 < d.1 := Nat.not_lt.2 (Nat.le_of_lt (of_decide_eq_true hlt))
      simpa using hle
  have hlength := hdown.length_eq
  rw [List.length_map] at hlength
  rw [List.length_eq_length_filter_add fun e => decide (e.1 < e.2), hlength]
  omega

theorem Simple.edgeCount_eq (hg : g.Simple) :
    g.edgeCount = {e : Sym2 ValueId | ∃ a b, e = s(a, b) ∧ g.interferes a b = true}.ncard := by
  -- Each unordered pair is counted with its smaller end first.
  let up := (g.pairs.filter fun e => e.1 < e.2).toFinset
  have hup : ∀ {e}, e ∈ up ↔ e.2 ∈ g.neighbours e.1 ∧ e.1 < e.2 := by
    intro e
    rw [List.mem_toFinset, List.mem_filter, mem_pairs, decide_eq_true_eq]
  have hset : {e : Sym2 ValueId | ∃ a b, e = s(a, b) ∧ g.interferes a b = true} =
      (fun e : ValueId × ValueId => s(e.1, e.2)) '' (up : Set (ValueId × ValueId)) := by
    ext e
    constructor
    · rintro ⟨a, b, rfl, hab⟩
      rw [interferes, OrderedSet.contains_iff_mem] at hab
      rcases Nat.lt_trichotomy a.index b.index with hlt | heq | hgt
      · exact ⟨(a, b), hup.2 ⟨hab, hlt⟩, rfl⟩
      · exact absurd (Handle.ext heq ▸ hab) (hg.irrefl b)
      · exact ⟨(b, a), hup.2 ⟨hg.symm a b hab, hgt⟩, Sym2.eq_swap⟩
    · rintro ⟨d, hd, rfl⟩
      exact ⟨d.1, d.2, rfl, OrderedSet.contains_iff_mem.2 (hup.1 hd).1⟩
  have hinj : Set.InjOn (fun e : ValueId × ValueId => s(e.1, e.2)) up := by
    intro d hd e he hde
    rcases Sym2.eq_iff.1 hde with ⟨h1, h2⟩ | ⟨h1, h2⟩
    · exact Prod.ext h1 h2
    · have hlt := (hup.1 hd).2
      rw [h1, h2] at hlt
      exact absurd hlt (Nat.lt_asymm (hup.1 he).2)
  rw [hset, hinj.ncard_image, Set.ncard_coe_finset,
    List.toFinset_card_of_nodup (g.pairs_nodup.filter _), edgeCount, ← Interference.length_pairs,
    hg.length_pairs]
  omega

theorem adjacency_of_perm (hperm : others.Perm additions) :
    (ofAdditions others).adjacency = (ofAdditions additions).adjacency := by
  refine adjacency_ext (fun v => ?_) fun v w => ?_
  · simp only [contains_ofAdditions, hperm.mem_iff]
  · simp only [mem_neighbours_ofAdditions, hperm.mem_iff]

theorem root_of_perm (hperm : others.Perm additions) :
    (ofAdditions others).root = (ofAdditions additions).root := by
  have hrecorded : Recorded others = Recorded additions := by
    funext a b
    exact propext hperm.mem_iff
  exact (hrecorded ▸ tracks_ofAdditions others).root_unique (tracks_ofAdditions additions)

/-- What is added determines the graph, in whatever order it comes: the classes are those of the
equivalence that the equalities generate, with two nodes at least, neighbours are the ends of an
edge, and a slot assignment goes by these alone. -/
theorem additions_determine_graph (additions : List Addition) :
    let g := ofAdditions additions
    (∀ v, Relation.ReflTransGen g.Link v (g.root v) ∧ g.parents.get? (g.root v) = none) ∧
    (∀ c, c ∈ g.classes ↔ 2 ≤ c.length ∧ c.Pairwise (· < ·) ∧
      ∃ v, ∀ w, w ∈ c ↔ g.contains w = true ∧ Relation.EqvGen (Recorded additions) v w) ∧
    (g.classes.Pairwise fun c d => ∀ v ∈ c.head?, ∀ w ∈ d.head?, v < w) ∧
    (∀ a b, g.interferes a b = true ↔ a ≠ b ∧ (.edge a b ∈ additions ∨ .edge b a ∈ additions)) ∧
    (∀ a b, g.interferes a b = g.interferes b a) ∧
    (∀ a, g.interferes a a = false) ∧
    g.edgeCount = {e : Sym2 ValueId | ∃ a b, e = s(a, b) ∧ g.interferes a b = true}.ncard ∧
    ∀ others : List Addition, others.Perm additions →
      let h := ofAdditions others
      h.nodes = g.nodes ∧ h.adjacency = g.adjacency ∧ h.classes = g.classes ∧
        ∀ coalesce, h.allocate coalesce = g.allocate coalesce := by
  intro g
  have htracks : g.Tracks (Recorded additions) := tracks_ofAdditions additions
  have hsimple : g.Simple := Built.simple ⟨additions, rfl⟩
  have hends : ∀ a b, g.interferes a b = true ↔
      a ≠ b ∧ (.edge a b ∈ additions ∨ .edge b a ∈ additions) := fun a b =>
    OrderedSet.contains_iff_mem.trans mem_neighbours_ofAdditions
  refine ⟨htracks.descending.root_spec, fun c => htracks.mem_classes_iff, g.classes_ascending,
    hends, fun a b => ?_, fun a => ?_, hsimple.edgeCount_eq, fun others hperm => ?_⟩
  · rw [Bool.eq_iff_iff, hends, hends, ne_comm, or_comm]
  · exact Bool.eq_false_iff.2 fun ha => ((hends a a).1 ha).1 rfl
  · have hadjacency : (ofAdditions others).adjacency = g.adjacency := adjacency_of_perm hperm
    have hclasses := classes_congr hadjacency (root_of_perm hperm)
    exact ⟨congrArg OrderedMap.keys hadjacency, hadjacency, hclasses,
      allocate_congr hadjacency hclasses⟩

/-- Three equal values with a neighbour among them, equal by way of a fourth value that is no node:
the links differ with the order, but the class and the slots do not. -/
theorem equal_through_stranger :
    let additions : List Addition := [.node ⟨4⟩, .edge ⟨1⟩ ⟨3⟩, .equality ⟨2⟩ ⟨3⟩,
      .equality ⟨1⟩ ⟨2⟩, .equality ⟨2⟩ ⟨4⟩]
    let g := ofAdditions additions
    let h := ofAdditions additions.reverse
    h.parents ≠ g.parents ∧ h.classes = g.classes ∧ g.classes = [[⟨1⟩, ⟨3⟩, ⟨4⟩]] ∧
      h.allocate true = g.allocate true ∧
      (g.allocate true).toList = [(⟨1⟩, 0), (⟨3⟩, 1), (⟨4⟩, 0)] := by
  intro additions
  obtain ⟨-, -, -, -, -, -, -, hsame⟩ := additions_determine_graph additions
  obtain ⟨-, -, hclasses, hslots⟩ := hsame additions.reverse additions.reverse_perm
  have horder : (ofAdditions additions).colouringOrder = (ofAdditions additions).nodes :=
    List.mergeSort_of_pairwise (by decide)
  have hlist : ((ofAdditions additions).allocate true).toList =
      [(⟨1⟩, 0), (⟨3⟩, 1), (⟨4⟩, 0)] := by
    rw [allocate, horder]
    decide +kernel
  exact ⟨by decide, hclasses, by decide, hslots true, hlist⟩

end Midend.Interference
