import Midend.Slots
import Midend.Proofs.Interference

namespace Midend

namespace Interference

variable {g : Interference} {slots : OrderedMap ValueId Nat} {v w : ValueId} {s : Nat}

/-- Neighbours have different slots, and only nodes have one. -/
structure Proper (g : Interference) (slots : OrderedMap ValueId Nat) : Prop where
  apart : ∀ v w s, v ≠ w → g.Edge v w → slots.get? v = some s → slots.get? w ≠ some s
  node : ∀ v s, slots.get? v = some s → g.contains v = true

theorem mem_takenSlots : s ∈ g.takenSlots slots v ↔
    ∃ w ∈ g.neighbours v, slots.get? w = some s := by
  simp only [takenSlots, List.mem_filterMap, OrderedSet.mem_toList]

/-- Among one more slot than there are taken ones, one is free; the lowest such slot has only taken
ones below it. -/
theorem lowestFree_spec (g : Interference) (slots : OrderedMap ValueId Nat) (v : ValueId) :
    g.lowestFree slots v ∉ g.takenSlots slots v ∧
      (∀ s < g.lowestFree slots v, s ∈ g.takenSlots slots v) ∧
      g.lowestFree slots v ≤ (g.takenSlots slots v).length := by
  unfold lowestFree
  generalize g.takenSlots slots v = taken
  obtain ⟨s, hs⟩ : ∃ s, (List.range (taken.length + 1)).find? (fun s => !taken.contains s) =
      some s := by
    rw [← Option.isSome_iff_exists, List.find?_isSome]
    refine Classical.byContradiction fun hnone => ?_
    have hsub : List.range (taken.length + 1) ⊆ taken := by
      intro s hs
      refine Classical.byContradiction fun hfree => hnone ⟨s, hs, ?_⟩
      simpa using hfree
    have hle := (List.subperm_of_subset List.nodup_range hsub).length_le
    rw [List.length_range] at hle
    omega
  dsimp only
  rw [hs]
  obtain ⟨hfree, hrange, hbelow⟩ := List.find?_range_eq_some.1 hs
  refine ⟨by simpa using hfree, fun t ht => by simpa using hbelow t ht, ?_⟩
  exact Nat.le_of_lt_succ (List.mem_range.1 hrange)

theorem Proper.insert (h : g.Proper slots) (hv : g.contains v = true)
    (hfree : s ∉ g.takenSlots slots v) : g.Proper (slots.insert v s) where
  apart a b t hne hedge ha hb := by
    rw [OrderedMap.get?_insert] at ha hb
    split at ha <;> split at hb
    · simp_all
    · obtain rfl := Option.some.inj ha
      subst a
      exact hfree (mem_takenSlots.2 ⟨b, hedge.1, hb⟩)
    · obtain rfl := Option.some.inj hb
      subst b
      exact hfree (mem_takenSlots.2 ⟨a, hedge.2, ha⟩)
    · exact h.apart a b t hne hedge ha hb
  node a t ha := by
    rw [OrderedMap.get?_insert] at ha
    split at ha
    · subst a
      exact hv
    · exact h.node a t ha

theorem Proper.offer (h : g.Proper slots) (hv : g.contains v = true) :
    g.Proper (g.offer s slots v) := by
  unfold Interference.offer
  split
  · exact h
  · rename_i hc
    rw [Bool.or_eq_true, not_or, List.contains_iff_mem] at hc
    exact h.insert hv hc.2

theorem Proper.foldl_offer (h : g.Proper slots) {vs : List ValueId}
    (hvs : ∀ v ∈ vs, g.contains v = true) : g.Proper (vs.foldl (g.offer s) slots) := by
  induction vs generalizing slots with
  | nil => exact h
  | cons v vs ih =>
    obtain ⟨hv, hvs⟩ := List.forall_mem_cons.1 hvs
    exact ih (h.offer hv) hvs

theorem Proper.colour (h : g.Proper slots) {classes : List (List ValueId)}
    (hclasses : ∀ c ∈ classes, ∀ v ∈ c, g.contains v = true) (hv : g.contains v = true) :
    g.Proper (g.colour classes slots v) := by
  unfold Interference.colour
  split
  · exact h
  · refine (h.insert hv (lowestFree_spec g slots v).1).foldl_offer fun w hw => ?_
    cases hfind : classes.find? (·.contains v) with
    | none =>
      rw [hfind] at hw
      cases hw
    | some c =>
      rw [hfind] at hw
      exact hclasses c (List.mem_of_find?_eq_some hfind) w hw

theorem mem_nodes : v ∈ g.nodes ↔ g.contains v = true := OrderedMap.mem_keys_iff

theorem contains_of_mem_classes {c : List ValueId} (hc : c ∈ g.classes) (hv : v ∈ c) :
    g.contains v = true := by
  obtain ⟨e, -, hclass⟩ := List.mem_filterMap.1 hc
  have hmem : v ∈ ((g.nodes.map fun v => (v, g.root v)).filter fun d => d.2 = e.2).map (·.1) := by
    split at hclass
    · rename_i u w rest heq
      split at hclass
      · rw [heq, Option.some.inj hclass]
        exact hv
      · cases hclass
    · cases hclass
  obtain ⟨x, hx, rfl⟩ := List.mem_map.1 hmem
  obtain ⟨w, hw, rfl⟩ := List.mem_map.1 (List.mem_filter.1 hx).1
  exact mem_nodes.1 hw

theorem allocate_proper (g : Interference) (coalesce : Bool) :
    g.Proper (g.allocate coalesce).slots := by
  have hclasses : ∀ c ∈ (if coalesce then g.classes else []), ∀ v ∈ c, g.contains v = true := by
    intro c hc v hv
    split at hc
    · exact contains_of_mem_classes hc hv
    · cases hc
  have hfold : ∀ (vs : List ValueId) (slots : OrderedMap ValueId Nat), g.Proper slots →
      (∀ v ∈ vs, g.contains v = true) →
      g.Proper (vs.foldl (g.colour (if coalesce then g.classes else [])) slots) := by
    intro vs
    induction vs with
    | nil => exact fun slots h _ => h
    | cons v vs ih =>
      intro slots h hvs
      obtain ⟨hv, hvs⟩ := List.forall_mem_cons.1 hvs
      exact ih _ (h.colour hclasses hv) hvs
  refine hfold g.colouringOrder ∅ ⟨?_, ?_⟩ fun v hv => ?_
  · intro v w s _ _ hv
    cases hv
  · intro v s hv
    cases hv
  · exact mem_nodes.1 ((List.mergeSort_perm _ _).mem_iff.1 hv)

end Interference

end Midend
