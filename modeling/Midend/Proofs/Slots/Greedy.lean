import Mathlib
import Midend.Proofs.Interference.Additions
import Midend.Proofs.Slots.Colouring

/-!
Greedy colouring is total and leaves no gaps. A node that takes the lowest free slot has neighbours
in all slots below it, so it has at least as many neighbours; the rest of its class is offered a slot
that is held already. So the slots in use are an initial segment, however the classes change the
order in which nodes come to their slots, and the largest degree bounds its length.
-/

namespace Midend

namespace Interference

variable {g : Interference} {slots : OrderedMap ValueId Nat} {classes : List (List ValueId)}
  {v w : ValueId} {s t : Nat}

/-- Below each slot that is held all slots are held, and some node has that many neighbours. -/
structure Gapless (g : Interference) (slots : OrderedMap ValueId Nat) : Prop where
  below : ∀ v s, slots.get? v = some s → ∀ t < s, ∃ w, slots.get? w = some t
  degree : ∀ v s, slots.get? v = some s → ∃ u, g.contains u = true ∧ s ≤ g.degree u

theorem get?_insert_of_held (hv : slots.get? v = none) (hw : slots.get? w = some t) :
    (slots.insert v s).get? w = some t := by
  have hne : w ≠ v := by
    rintro rfl
    rw [hv] at hw
    cases hw
  rw [OrderedMap.get?_insert, if_neg hne, hw]

theorem Gapless.insert (h : g.Gapless slots) (hv : slots.get? v = none)
    (hbelow : ∀ t < s, ∃ w, slots.get? w = some t)
    (hdegree : ∃ u, g.contains u = true ∧ s ≤ g.degree u) : g.Gapless (slots.insert v s) := by
  have hcases : ∀ w t, (slots.insert v s).get? w = some t → t = s ∨ slots.get? w = some t := by
    intro w t hw
    rw [OrderedMap.get?_insert] at hw
    split at hw
    · exact .inl (Option.some.inj hw).symm
    · exact .inr hw
  constructor
  · intro w t hw u hu
    have hheld : ∃ x, slots.get? x = some u := by
      rcases hcases w t hw with rfl | hw
      · exact hbelow u hu
      · exact h.below w t hw u hu
    obtain ⟨x, hx⟩ := hheld
    exact ⟨x, get?_insert_of_held hv hx⟩
  · intro w t hw
    rcases hcases w t hw with rfl | hw
    · exact hdegree
    · exact h.degree w t hw

theorem Gapless.offer (h : g.Gapless slots) (hw : slots.get? w = some s) (v : ValueId) :
    g.Gapless (g.offer s slots v) := by
  unfold Interference.offer
  split
  · exact h
  · rename_i hc
    have hv : slots.get? v = none := by
      rw [Bool.or_eq_true, not_or, OrderedMap.contains, Bool.not_eq_true,
        Option.isSome_eq_false_iff, Option.isNone_iff_eq_none] at hc
      exact hc.1
    exact h.insert hv (h.below w s hw) (h.degree w s hw)

theorem get?_offer (hw : slots.get? w = some t) : (g.offer s slots v).get? w = some t := by
  unfold Interference.offer
  split
  · exact hw
  · rename_i hc
    rw [OrderedMap.get?_insert]
    split
    · subst w
      simp [OrderedMap.contains, hw] at hc
    · exact hw

theorem get?_foldl_offer (vs : List ValueId) (hw : slots.get? w = some t) :
    (vs.foldl (g.offer s) slots).get? w = some t := by
  induction vs generalizing slots with
  | nil => exact hw
  | cons v vs ih => exact ih (get?_offer hw)

theorem Gapless.foldl_offer (h : g.Gapless slots) (hw : slots.get? w = some s)
    (vs : List ValueId) : g.Gapless (vs.foldl (g.offer s) slots) := by
  induction vs generalizing slots with
  | nil => exact h
  | cons v vs ih => exact ih (h.offer hw v) (get?_offer hw)

/-- The lowest free slot is at most the number of neighbours. -/
theorem lowestFree_le_degree (g : Interference) (slots : OrderedMap ValueId Nat) (v : ValueId) :
    g.lowestFree slots v ≤ g.degree v :=
  (lowestFree_spec g slots v).2.2.trans (List.length_filterMap_le _ _)

/-- One value: what was held stays held, the value has a slot, and there is no gap. -/
theorem colour_spec (classes : List (List ValueId)) (h : g.Gapless slots)
    (hv : g.contains v = true) :
    g.Gapless (g.colour classes slots v) ∧ (∃ s, (g.colour classes slots v).get? v = some s) ∧
      ∀ w t, slots.get? w = some t → (g.colour classes slots v).get? w = some t := by
  unfold colour
  split
  · rename_i hc
    exact ⟨h, Option.isSome_iff_exists.1 hc, fun _ _ hw => hw⟩
  · rename_i hc
    have hnone : slots.get? v = none := by simpa [OrderedMap.contains] using hc
    obtain ⟨-, hbelow, -⟩ := lowestFree_spec g slots v
    have hinsert : g.Gapless (slots.insert v (g.lowestFree slots v)) := by
      refine h.insert hnone (fun t ht => ?_) ⟨v, hv, lowestFree_le_degree g slots v⟩
      obtain ⟨w, -, hw⟩ := mem_takenSlots.1 (hbelow t ht)
      exact ⟨w, hw⟩
    have hself : (slots.insert v (g.lowestFree slots v)).get? v = some (g.lowestFree slots v) := by
      rw [OrderedMap.get?_insert, if_pos rfl]
    exact ⟨hinsert.foldl_offer hself _, ⟨_, get?_foldl_offer _ hself⟩,
      fun w t hw => get?_foldl_offer _ (get?_insert_of_held hnone hw)⟩

theorem foldl_colour_spec (classes : List (List ValueId)) (vs : List ValueId)
    (h : g.Gapless slots) (hvs : ∀ v ∈ vs, g.contains v = true) :
    g.Gapless (vs.foldl (g.colour classes) slots) ∧
      (∀ v ∈ vs, ∃ s, (vs.foldl (g.colour classes) slots).get? v = some s) ∧
      ∀ w t, slots.get? w = some t → (vs.foldl (g.colour classes) slots).get? w = some t := by
  induction vs generalizing slots with
  | nil => exact ⟨h, by simp, fun _ _ hw => hw⟩
  | cons v vs ih =>
    obtain ⟨hv, hvs⟩ := List.forall_mem_cons.1 hvs
    obtain ⟨hstep, ⟨s, hs⟩, hkeep⟩ := colour_spec classes h hv
    obtain ⟨hgap, htotal, hkeep'⟩ := ih hstep hvs
    exact ⟨hgap, List.forall_mem_cons.2 ⟨⟨s, hkeep' v s hs⟩, htotal⟩,
      fun w t hw => hkeep' w t (hkeep w t hw)⟩

theorem allocate_total (g : Interference) (coalesce : Bool) :
    g.Gapless (g.allocate coalesce).slots ∧
      ∀ v, g.contains v = true → ∃ s, (g.allocate coalesce).slot v = some s := by
  have horder : ∀ v, v ∈ g.colouringOrder ↔ g.contains v = true := fun v =>
    (List.mergeSort_perm _ _).mem_iff.trans mem_nodes
  have hempty : g.Gapless ∅ := by
    constructor
    all_goals
      intro v s hv
      cases hv
  obtain ⟨hgap, htotal, -⟩ := foldl_colour_spec (if coalesce then g.classes else [])
    g.colouringOrder hempty fun v hv => (horder v).1 hv
  exact ⟨hgap, fun v hv => htotal v ((horder v).2 hv)⟩

theorem lt_foldl_max (ss : List Nat) (n s : Nat) :
    s < ss.foldl (fun n t => max n (t + 1)) n ↔ s < n ∨ ∃ t ∈ ss, s ≤ t := by
  induction ss generalizing n with
  | nil => simp
  | cons t ss ih =>
    rw [List.foldl_cons, ih]
    simp only [lt_sup_iff, Nat.lt_succ_iff, List.mem_cons, exists_eq_or_imp, or_assoc]

theorem lt_count_iff (g : Interference) (coalesce : Bool) :
    s < (g.allocate coalesce).count ↔ ∃ v, (g.allocate coalesce).slot v = some s := by
  have hcount : s < (g.allocate coalesce).count ↔
      ∃ t ∈ (g.allocate coalesce).slots.values, s ≤ t := by
    refine (lt_foldl_max _ 0 s).trans ?_
    rw [or_iff_right (Nat.not_lt_zero s)]
    rfl
  rw [hcount]
  constructor
  · rintro ⟨t, ht, hle⟩
    obtain ⟨v, hv⟩ := OrderedMap.mem_values.1 ht
    rcases Nat.eq_or_lt_of_le hle with rfl | hlt
    · exact ⟨v, hv⟩
    · exact (allocate_total g coalesce).1.below v t hv s hlt
  · rintro ⟨v, hv⟩
    exact ⟨s, OrderedMap.mem_values.2 ⟨v, hv⟩, le_rfl⟩

theorem exists_slot_iff (g : Interference) (coalesce : Bool) :
    (∃ s, (g.allocate coalesce).slot v = some s) ↔ g.contains v = true := by
  constructor
  · rintro ⟨s, hs⟩
    exact (allocate_proper g coalesce).node v s hs
  · exact (allocate_total g coalesce).2 v

theorem size_allocate (g : Interference) (coalesce : Bool) :
    (g.allocate coalesce).size = g.nodeCount := by
  have hperm : (g.allocate coalesce).slots.keys.Perm g.adjacency.keys := by
    refine (List.perm_ext_iff_of_nodup (OrderedMap.keys_nodup _) (OrderedMap.keys_nodup _)).2 ?_
    intro v
    rw [OrderedMap.mem_keys, OrderedMap.mem_keys_iff]
    exact exists_slot_iff g coalesce
  rw [SlotAssignment.size, nodeCount, OrderedMap.size, OrderedMap.size]
  simpa [OrderedMap.keys] using hperm.length_eq

theorem count_of_nodeCount_eq_zero (coalesce : Bool) (h : g.nodeCount = 0) :
    (g.allocate coalesce).count = 0 := by
  refine Nat.eq_zero_of_not_pos fun hpos => ?_
  obtain ⟨v, hv⟩ := (lt_count_iff g coalesce).1 hpos
  have hnode : v ∈ g.nodes := mem_nodes.2 ((exists_slot_iff g coalesce).1 ⟨0, hv⟩)
  have hempty : g.nodes = [] := List.map_eq_nil_iff.2 (List.length_eq_zero_iff.1 h)
  rw [hempty] at hnode
  cases hnode

theorem toFinset_slots (g : Interference) (coalesce : Bool) :
    ((g.allocate coalesce).toList.map (·.2)).toFinset =
      Finset.range (g.allocate coalesce).count := by
  ext s
  rw [List.mem_toFinset, Finset.mem_range, lt_count_iff]
  exact OrderedMap.mem_values

theorem Simple.slot_ne (hg : g.Simple) (coalesce : Bool) (hvw : g.interferes v w = true)
    (hv : (g.allocate coalesce).slot v = some s) : (g.allocate coalesce).slot w ≠ some s := by
  have hedge := hg.edge_iff.2 hvw
  refine (allocate_proper g coalesce).apart v w s ?_ hedge hv
  rintro rfl
  exact hg.irrefl v hedge.1

theorem Simple.conflicts_eq_nil (hg : g.Simple) (coalesce : Bool) :
    (g.allocate coalesce).conflicts g = [] := by
  simp only [SlotAssignment.conflicts, List.flatMap_eq_nil_iff, List.map_eq_nil_iff,
    List.filter_eq_nil_iff, Bool.and_eq_true, decide_eq_true_eq, not_and]
  intro e he w hw _
  refine hg.slot_ne coalesce ?_ (OrderedMap.mem_toList.1 he)
  exact OrderedSet.contains_iff_mem.2 hw

def maxDegree (g : Interference) : Nat := g.nodes.toFinset.sup g.degree

theorem count_le_maxDegree (g : Interference) (coalesce : Bool) :
    (g.allocate coalesce).count ≤ g.maxDegree + 1 := by
  refine Nat.le_of_not_lt fun hlt => ?_
  obtain ⟨v, hv⟩ := (lt_count_iff g coalesce).1 hlt
  obtain ⟨u, hu, hle⟩ := (allocate_total g coalesce).1.degree v _ hv
  have hmax : g.degree u ≤ g.maxDegree :=
    Finset.le_sup (f := g.degree) (List.mem_toFinset.2 (mem_nodes.2 hu))
  omega

theorem Simple.count_of_complete (hg : g.Simple) (coalesce : Bool)
    (hall : ∀ v w, g.contains v = true → g.contains w = true → v ≠ w → g.interferes v w = true) :
    (g.allocate coalesce).count = g.nodeCount := by
  have hnodup : (g.allocate coalesce).slots.values.Nodup := by
    refine OrderedMap.values_nodup _ fun v w s hv hw => ?_
    by_contra hne
    have hnode : ∀ u, (g.allocate coalesce).slot u = some s → g.contains u = true :=
      fun u hu => (exists_slot_iff g coalesce).1 ⟨s, hu⟩
    exact hg.slot_ne coalesce (hall v w (hnode v hv) (hnode w hw) hne) hv hw
  calc (g.allocate coalesce).count
      = ((g.allocate coalesce).toList.map (·.2)).toFinset.card := by
        rw [toFinset_slots, Finset.card_range]
    _ = (g.allocate coalesce).slots.values.length := List.toFinset_card_of_nodup hnodup
    _ = (g.allocate coalesce).size := List.length_map _
    _ = g.nodeCount := size_allocate g coalesce

end Interference

/-- Exactly the nodes have slots, neighbours different ones, and every slot below the count is held.
One slot more than the largest degree is enough, and where all nodes are neighbours each has its
own. -/
theorem allocate_colouring (g : Interference) (hg : g.Built) (coalesce : Bool) :
    (∀ v, (∃ s, (g.allocate coalesce).slot v = some s) ↔ g.contains v = true) ∧
    (∀ v w s, g.interferes v w = true → (g.allocate coalesce).slot v = some s →
      (g.allocate coalesce).slot w ≠ some s) ∧
    (g.allocate coalesce).conflicts g = [] ∧
    (∀ s, s < (g.allocate coalesce).count ↔ ∃ v, (g.allocate coalesce).slot v = some s) ∧
    ((g.allocate coalesce).toList.map (·.2)).toFinset.card = (g.allocate coalesce).count ∧
    (g.nodeCount = 0 → (g.allocate coalesce).count = 0) ∧
    (g.nodeCount ≠ 0 → (g.allocate coalesce).count ≤ g.maxDegree + 1) ∧
    ((∀ v w, g.contains v = true → g.contains w = true → v ≠ w → g.interferes v w = true) →
      (g.allocate coalesce).count = g.nodeCount) := by
  have hsimple := hg.simple
  refine ⟨fun v => g.exists_slot_iff coalesce, fun v w s => hsimple.slot_ne coalesce,
    hsimple.conflicts_eq_nil coalesce, fun s => g.lt_count_iff coalesce, ?_,
    Interference.count_of_nodeCount_eq_zero coalesce, fun _ => g.count_le_maxDegree coalesce,
    hsimple.count_of_complete coalesce⟩
  rw [Interference.toFinset_slots, Finset.card_range]

/-- Three values that are all neighbours, two of which should be equal. -/
def equalTriangle : Interference :=
  [.edge ⟨0⟩ ⟨1⟩, .edge ⟨1⟩ ⟨2⟩, .edge ⟨2⟩ ⟨0⟩, .equality ⟨0⟩ ⟨2⟩].foldl Interference.add {}

/-- The equality gives way to the edge: three slots, one for each value. -/
theorem equalTriangle_colouring : equalTriangle.Built ∧ equalTriangle.root ⟨2⟩ = ⟨0⟩ ∧
    (equalTriangle.allocate true).count = 3 ∧
    (equalTriangle.allocate true).conflicts equalTriangle = [] ∧
    (∀ s, s < 3 ↔ ∃ v, (equalTriangle.allocate true).slot v = some s) := by
  have hbuilt : equalTriangle.Built := ⟨_, rfl⟩
  have hall : ∀ v w, equalTriangle.contains v = true → equalTriangle.contains w = true → v ≠ w →
      equalTriangle.interferes v w = true := by
    have hnodes : ∀ v ∈ equalTriangle.nodes, ∀ w ∈ equalTriangle.nodes, v ≠ w →
        equalTriangle.interferes v w = true := by decide
    exact fun v w hv hw => hnodes v (Interference.mem_nodes.2 hv) w (Interference.mem_nodes.2 hw)
  obtain ⟨-, -, hconflicts, hslots, -, -, -, hcomplete⟩ :=
    allocate_colouring equalTriangle hbuilt true
  have hcount : (equalTriangle.allocate true).count = 3 := (hcomplete hall).trans (by decide)
  rw [hcount] at hslots
  exact ⟨hbuilt, by decide, hcount, hconflicts, hslots⟩

end Midend
