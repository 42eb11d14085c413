import Mathlib.Logic.Relation
import Mathlib.Tactic.Common
import Midend.Graph.Dominators

namespace Midend.IdomTable

/-- `a` is `n` or can be reached from it by links of the table. -/
def Above (t : IdomTable) (n a : BlockId) : Prop :=
  Relation.ReflTransGen (fun n a => t.idom n = some a) n a

variable {t : IdomTable} {n a b c d x : BlockId} {rank : BlockId → Nat}

namespace Above

theorem refl (n : BlockId) : t.Above n n := Relation.ReflTransGen.refl

theorem trans (h : t.Above n a) (k : t.Above a b) : t.Above n b := Relation.ReflTransGen.trans h k

theorem link (h : t.idom n = some a) : t.Above n a := .single h

theorem cases_idom (h : t.Above n a) : n = a ∨ ∃ d, t.idom n = some d ∧ t.Above d a :=
  Relation.ReflTransGen.cases_head h

theorem eq_of_idom_none (h : t.Above n a) (hn : t.idom n = none) : a = n := by
  rcases h.cases_idom with h | ⟨d, hd, -⟩
  · exact h.symm
  · rw [hn] at hd
    cases hd

/-- Two nodes above a third are above one another, as each node has one link. -/
theorem total (h : t.Above n a) (k : t.Above n b) : t.Above a b ∨ t.Above b a :=
  Relation.ReflTransGen.total_of_right_unique (fun _ _ _ h k => by simpa [h] using k) h k

theorem rank_le (hr : ∀ n d, t.idom n = some d → rank d < rank n) (h : t.Above n a) :
    rank a ≤ rank n := by
  induction h with
  | refl => exact Nat.le_refl _
  | tail _ hd ih => exact Nat.le_trans (Nat.le_of_lt (hr _ _ hd)) ih

end Above

theorem above_of_mem_climb {fuel : Nat} (h : a ∈ t.climb fuel n) : t.Above n a := by
  induction fuel generalizing n with
  | zero =>
    obtain rfl := List.mem_singleton.1 h
    exact .refl _
  | succ fuel ih =>
    unfold climb at h
    split at h
    · obtain rfl := List.mem_singleton.1 h
      exact .refl _
    · rename_i d hd
      rcases List.mem_cons.1 h with rfl | h
      · exact .refl _
      · exact (Above.link hd).trans (ih h)

theorem mem_climb_of_above (hr : ∀ n d, t.idom n = some d → rank d < rank n) {fuel : Nat}
    (hfuel : rank n ≤ fuel) (h : t.Above n a) : a ∈ t.climb fuel n := by
  induction fuel generalizing n with
  | zero =>
    rcases h.cases_idom with rfl | ⟨d, hd, -⟩
    · exact List.mem_singleton_self _
    · have := hr n d hd
      omega
  | succ fuel ih =>
    unfold climb
    rcases h.cases_idom with rfl | ⟨d, hd, hda⟩
    · split <;> simp
    · rw [hd]
      have := hr n d hd
      exact List.mem_cons_of_mem _ (ih (by omega) hda)

theorem climb_pairwise (t : IdomTable) (fuel : Nat) (n : BlockId) :
    (t.climb fuel n).Pairwise t.Above := by
  induction fuel generalizing n with
  | zero => exact List.pairwise_singleton _ _
  | succ fuel ih =>
    unfold climb
    split
    · exact List.pairwise_singleton _ _
    · rename_i d hd
      refine List.pairwise_cons.2 ⟨fun a ha => ?_, ih d⟩
      exact (Above.link hd).trans (above_of_mem_climb ha)

theorem mem_chain_iff (hr : ∀ n d, t.idom n = some d → rank d < rank n) (hn : rank n ≤ t.size) :
    a ∈ t.chain n ↔ t.Above n a :=
  ⟨above_of_mem_climb, mem_climb_of_above hr hn⟩

/-- The common dominator of two nodes with a common ancestor is the lowest such ancestor. -/
theorem commonDominator_spec (hr : ∀ n d, t.idom n = some d → rank d < rank n)
    (ha : rank a ≤ t.size) (hb : rank b ≤ t.size) (hax : t.Above a x) (hbx : t.Above b x) :
    t.Above a (t.commonDominator a b) ∧ t.Above b (t.commonDominator a b) ∧
      ∀ z, t.Above a z → t.Above b z → t.Above (t.commonDominator a b) z := by
  have hmem : ∀ z, (t.chain a).contains z = true ↔ t.Above a z := by
    intro z
    rw [List.contains_iff_mem]
    exact mem_chain_iff hr ha
  obtain ⟨c, hc⟩ : ∃ c, (t.chain b).find? (fun n => (t.chain a).contains n) = some c := by
    rw [← Option.isSome_iff_exists, List.find?_isSome]
    exact ⟨x, (mem_chain_iff hr hb).2 hbx, (hmem x).2 hax⟩
  have hcd : t.commonDominator a b = c := by
    simp only [commonDominator, hc, Option.getD_some]
  obtain ⟨hac, as, bs, hsplit, hfirst⟩ := List.find?_eq_some_iff_append.1 hc
  have hcb : c ∈ t.climb t.size b := show c ∈ t.chain b by rw [hsplit]; simp
  have hbc : t.Above b c := above_of_mem_climb hcb
  rw [hcd]
  refine ⟨(hmem c).1 hac, hbc, fun z haz hbz => ?_⟩
  have hz : z ∈ as ++ c :: bs := hsplit ▸ (mem_chain_iff hr hb).2 hbz
  rcases List.mem_append.1 hz with hz | hz
  · have hno := hfirst z hz
    rw [(hmem z).2 haz] at hno
    cases hno
  · rcases List.mem_cons.1 hz with rfl | hz
    · exact .refl _
    · have hpair : (as ++ c :: bs).Pairwise t.Above := hsplit ▸ climb_pairwise t t.size b
      exact (List.pairwise_cons.1 (List.pairwise_append.1 hpair).2.1).1 z hz

theorem idom_setIfInBounds (hn : n.index < t.size) (x : BlockId) (e : Option BlockId) :
    IdomTable.idom (t.setIfInBounds n.index e) x = if x = n then e else t.idom x := by
  by_cases hx : x = n
  · subst hx
    simp [idom, hn]
  · have hne : n.index ≠ x.index := fun h => hx (Handle.ext h.symm)
    simp [idom, hx, Array.getElem?_setIfInBounds_ne hne]

section Relink

variable {t' : IdomTable} (hr : ∀ n d, t.idom n = some d → rank d < rank n)
  (hd : rank d < rank n) (ht : ∀ x, t'.idom x = if x = n then some d else t.idom x)
include hr hd

theorem not_above_new : ¬ t.Above d n := by
  intro h
  have := h.rank_le hr
  omega

include ht

theorem above_relink_of_below (h : t.Above x a) (hn : t.Above a n ∨ ¬ t.Above x n) :
    t'.Above x a := by
  induction h using Relation.ReflTransGen.head_induction_on with
  | refl => exact .refl _
  | @head x p hp hpa ih =>
    by_cases hx : x = n
    · subst hx
      rcases hn with hn | hn
      · have h1 := hr _ _ hp
        have h2 := Above.rank_le hr hpa
        have h3 := hn.rank_le hr
        omega
      · exact absurd (.refl _) hn
    · have hp' : t'.idom x = some p := by rw [ht, if_neg hx, hp]
      refine (Above.link hp').trans (ih ?_)
      exact hn.imp_right fun h k => h ((Above.link hp).trans k)

theorem above_relink (h : t.Above x n) (k : t.Above d a) : t'.Above x a := by
  have h1 : t'.Above x n := above_relink_of_below hr hd ht h (.inl (.refl _))
  have h2 : t'.idom n = some d := by rw [ht, if_pos rfl]
  have h3 : t'.Above d a := above_relink_of_below hr hd ht k (.inr (not_above_new hr hd))
  exact h1.trans ((Above.link h2).trans h3)

theorem above_of_relink (h : t'.Above x a) : t.Above x a ∨ (t.Above x n ∧ t.Above d a) := by
  induction h using Relation.ReflTransGen.head_induction_on with
  | refl => exact .inl (.refl _)
  | @head x p hp _ ih =>
    rw [ht] at hp
    by_cases hx : x = n
    · rw [if_pos hx] at hp
      obtain rfl := Option.some.inj hp
      rcases ih with ih | ih
      · exact .inr ⟨hx ▸ .refl _, ih⟩
      · exact absurd ih.1 (not_above_new hr hd)
    · rw [if_neg hx] at hp
      rcases ih with ih | ih
      · exact .inl ((Above.link hp).trans ih)
      · exact .inr ⟨(Above.link hp).trans ih.1, ih.2⟩

end Relink

end Midend.IdomTable
