import Mathlib.Logic.Relation
import Midend.Proofs.Interference.Additions
import Midend.Proofs.Slots.Colouring

/-!
Equality classes. Links go from a value to a smaller one, so climbing ends, at the smallest value of
the class; and two values have the same root exactly if the recorded equalities make them equal.
Which links there are depends on the order of the equalities, but the roots do not.
-/

namespace Midend.Interference

def Link (g : Interference) (v p : ValueId) : Prop := g.parents.get? v = some p

def Descending (g : Interference) : Prop := ∀ v p, g.Link v p → p < v

variable {g h : Interference} {a b c p r v w : ValueId} {R S : ValueId → ValueId → Prop}

/-- How many children are not greater than `v`, which bounds the links above `v`. -/
def height (g : Interference) (v : ValueId) : Nat :=
  (g.parents.keys.filter fun k => k.index ≤ v.index).length

theorem height_le_size (g : Interference) (v : ValueId) : g.height v ≤ g.parents.size := by
  have hkeys : g.parents.keys.length = g.parents.size := by simp [OrderedMap.keys, OrderedMap.size]
  exact hkeys ▸ List.length_filter_le _ _

theorem Descending.height_lt (hg : g.Descending) (hp : g.Link v p) : g.height p < g.height v := by
  have hlt : p.index < v.index := hg v p hp
  have hwithin : (g.parents.keys.filter fun k => k.index ≤ p.index) =
      (g.parents.keys.filter fun k => k.index ≤ v.index).filter fun k => k.index ≤ p.index := by
    rw [List.filter_filter]
    refine List.filter_congr fun k _ => ?_
    rw [← Bool.decide_and, decide_eq_decide]
    omega
  rw [height, height, hwithin, List.length_filter_lt_length_iff_exists]
  refine ⟨v, List.mem_filter.2 ⟨OrderedMap.mem_keys.2 ⟨p, hp⟩, by simp⟩, ?_⟩
  simpa using hlt

theorem Descending.climb_spec (hg : g.Descending) {fuel : Nat} (hfuel : g.height v ≤ fuel) :
    Relation.ReflTransGen g.Link v (g.climb fuel v) ∧ g.parents.get? (g.climb fuel v) = none := by
  induction fuel generalizing v with
  | zero =>
    refine ⟨.refl, ?_⟩
    cases hp : g.parents.get? v with
    | none => exact hp
    | some p =>
      have := hg.height_lt hp
      omega
  | succ fuel ih =>
    unfold climb
    cases hp : g.parents.get? v with
    | none => exact ⟨.refl, hp⟩
    | some p =>
      have hlt := hg.height_lt hp
      obtain ⟨hlinks, hend⟩ := ih (v := p) (by omega)
      exact ⟨.head hp hlinks, hend⟩

theorem Descending.root_spec (hg : g.Descending) (v : ValueId) :
    Relation.ReflTransGen g.Link v (g.root v) ∧ g.parents.get? (g.root v) = none :=
  hg.climb_spec (g.height_le_size v)

theorem eq_of_links (hr : g.parents.get? r = none) (h : Relation.ReflTransGen g.Link r v) :
    v = r := by
  rcases h.cases_head with heq | ⟨p, hp, -⟩
  · exact heq.symm
  · rw [Link, hr] at hp
    cases hp

theorem Descending.root_eq (hg : g.Descending) (hv : Relation.ReflTransGen g.Link v r)
    (hr : g.parents.get? r = none) : g.root v = r := by
  obtain ⟨hroot, hend⟩ := hg.root_spec v
  have hunique : Relator.RightUnique g.Link := fun _ _ _ hb hc =>
    Option.some.inj (Eq.trans (Eq.symm hb) hc)
  rcases Relation.ReflTransGen.total_of_right_unique hunique hroot hv with habove | habove
  · exact (eq_of_links hend habove).symm
  · exact eq_of_links hr habove

theorem Descending.root_le (hg : g.Descending) (v : ValueId) : (g.root v).index ≤ v.index := by
  have hdown : ∀ r, Relation.ReflTransGen g.Link v r → r.index ≤ v.index := by
    intro r hr
    induction hr with
    | refl => exact Nat.le_refl _
    | tail _ hp ih => exact Nat.le_trans (Nat.le_of_lt (hg _ _ hp)) ih
  exact hdown _ (hg.root_spec v).1

theorem root_congr (hparents : h.parents = g.parents) (v : ValueId) : h.root v = g.root v := by
  have hclimb : ∀ fuel v, h.climb fuel v = g.climb fuel v := by
    intro fuel
    induction fuel with
    | zero => exact fun _ => rfl
    | succ fuel ih =>
      intro v
      unfold climb
      rw [hparents]
      cases g.parents.get? v with
      | none => rfl
      | some p => exact ih p
  rw [root, root, hparents, hclimb]

/-- A link between two roots makes the smaller one the root of all that either was the root of. -/
theorem Descending.join (hg : g.Descending) (hc : g.parents.get? c = none)
    (hp : g.parents.get? p = none) (hlt : p < c) (hh : h.parents = g.parents.insert c p) :
    h.Descending ∧ ∀ v, h.root v = if g.root v = c then p else g.root v := by
  have hget : ∀ v, h.parents.get? v = if v = c then some p else g.parents.get? v := by
    intro v
    rw [hh, OrderedMap.get?_insert]
  have hdesc : h.Descending := by
    intro v q hq
    rw [Link, hget] at hq
    split at hq
    · rename_i heq
      exact Option.some.inj hq ▸ heq ▸ hlt
    · exact hg v q hq
  have hne : p ≠ c := fun heq => Nat.lt_irrefl _ (heq ▸ hlt : c < c)
  refine ⟨hdesc, fun v => ?_⟩
  obtain ⟨hlinks, hend⟩ := hg.root_spec v
  -- The links up to the root stay, since `c` had none; from there one more may lead on.
  have hlinks' : Relation.ReflTransGen h.Link v (g.root v) := by
    refine Relation.ReflTransGen.mono (fun x q hq => ?_) _ _ hlinks
    have hxc : x ≠ c := by
      rintro rfl
      rw [Link, hc] at hq
      cases hq
    rw [Link, hget, if_neg hxc]
    exact hq
  split
  · rename_i hroot
    have hlast : h.Link (g.root v) p := by rw [Link, hget, if_pos hroot]
    refine hdesc.root_eq (hlinks'.tail hlast) ?_
    rw [hget, if_neg hne, hp]
  · rename_i hroot
    refine hdesc.root_eq hlinks' ?_
    rw [hget, if_neg hroot, hend]

/-- The roots answer for the equalities `R`: a value is equal to its root, and values that are
recorded as equal have one root. -/
structure Tracks (g : Interference) (R : ValueId → ValueId → Prop) : Prop where
  descending : g.Descending
  root : ∀ v, Relation.EqvGen R v (g.root v)
  recorded : ∀ a b, R a b → g.root a = g.root b

namespace Tracks

theorem root_eq_iff (hg : g.Tracks R) : g.root v = g.root w ↔ Relation.EqvGen R v w := by
  constructor
  · intro heq
    exact (hg.root v).trans _ _ _ (heq ▸ (hg.root w).symm)
  · intro hvw
    induction hvw with
    | rel _ _ hr => exact hg.recorded _ _ hr
    | refl => rfl
    | symm _ _ _ ih => exact ih.symm
    | trans _ _ _ _ _ ih ih' => exact ih.trans ih'

theorem root_le (hg : g.Tracks R) (hvw : Relation.EqvGen R v w) : (g.root v).index ≤ w.index :=
  hg.root_eq_iff.2 hvw ▸ hg.descending.root_le w

theorem root_unique (hg : g.Tracks R) (hh : h.Tracks R) : g.root = h.root := by
  funext v
  refine Handle.ext (Nat.le_antisymm (hg.root_le (hh.root v)) (hh.root_le (hg.root v)))

theorem congr (hg : g.Tracks R) (hparents : h.parents = g.parents) : h.Tracks R where
  descending v p hp := hg.descending v p (by rwa [Link, hparents] at hp)
  root v := root_congr hparents v ▸ hg.root v
  recorded a b hab := by
    rw [root_congr hparents, root_congr hparents]
    exact hg.recorded a b hab

/-- A link between the roots of `a` and `b` makes the two equal, and nothing else. -/
theorem join (hg : g.Tracks R) (hlt : g.root b < g.root a)
    (hh : h.parents = g.parents.insert (g.root a) (g.root b)) (hRS : ∀ v w, R v w → S v w)
    (hab : Relation.EqvGen S a b)
    (hS : ∀ v w, S v w → R v w ∨ (v = a ∧ w = b) ∨ (v = b ∧ w = a)) : h.Tracks S := by
  obtain ⟨hdesc, hroot⟩ := hg.descending.join (hg.descending.root_spec a).2
    (hg.descending.root_spec b).2 hlt hh
  have hne : g.root b ≠ g.root a := fun heq => Nat.lt_irrefl _ (heq ▸ hlt : g.root a < g.root a)
  have hboth : h.root a = h.root b := by rw [hroot, hroot, if_pos rfl, if_neg hne]
  have hmono : ∀ v, Relation.EqvGen S v (g.root v) := fun v =>
    Relation.EqvGen.mono hRS _ _ (hg.root v)
  refine ⟨hdesc, fun v => ?_, fun v w hvw => ?_⟩
  · rw [hroot]
    split
    · rename_i heq
      exact (heq ▸ hmono v).trans _ _ _ (((hmono a).symm.trans _ _ _ hab).trans _ _ _ (hmono b))
    · exact hmono v
  · rcases hS v w hvw with hvw | ⟨rfl, rfl⟩ | ⟨rfl, rfl⟩
    · rw [hroot, hroot, hg.recorded v w hvw]
    · exact hboth
    · exact hboth.symm

end Tracks

def ofAdditions (additions : List Addition) : Interference := additions.foldl add {}

theorem ofAdditions_concat (additions : List Addition) (addition : Addition) :
    ofAdditions (additions ++ [addition]) = (ofAdditions additions).add addition := by
  rw [ofAdditions, List.foldl_append]
  rfl

def Recorded (additions : List Addition) (a b : ValueId) : Prop := .equality a b ∈ additions

theorem Tracks.addEquality {additions : List Addition} (hg : g.Tracks (Recorded additions))
    (a b : ValueId) : (g.addEquality a b).Tracks (Recorded (additions ++ [.equality a b])) := by
  have hkeep : ∀ v w, Recorded additions v w → Recorded (additions ++ [.equality a b]) v w :=
    fun v w hvw => List.mem_append_left _ hvw
  have hnew : Relation.EqvGen (Recorded (additions ++ [.equality a b])) a b :=
    .rel _ _ (List.mem_append_right _ (List.mem_singleton_self _))
  have honly : ∀ v w, Recorded (additions ++ [.equality a b]) v w →
      Recorded additions v w ∨ v = a ∧ w = b := by
    intro v w hvw
    refine (List.mem_append.1 hvw).imp_right fun heq => ?_
    exact Addition.equality.inj (List.mem_singleton.1 heq)
  unfold Interference.addEquality
  dsimp only
  -- Equal roots need no link; otherwise the greater root gets one to the smaller.
  split
  · rename_i heq
    refine ⟨hg.descending, fun v => Relation.EqvGen.mono hkeep _ _ (hg.root v), fun v w hvw => ?_⟩
    rcases honly v w hvw with hvw | ⟨rfl, rfl⟩
    · exact hg.recorded v w hvw
    · exact heq
  · rename_i hne
    split
    · rename_i hlt
      refine hg.join hlt rfl hkeep hnew.symm fun v w hvw => ?_
      exact (honly v w hvw).imp_right .inr
    · rename_i hge
      have hlt : g.root b < g.root a :=
        Nat.lt_of_le_of_ne (Nat.le_of_not_lt hge) fun heq => hne (Handle.ext heq.symm)
      refine hg.join hlt rfl hkeep hnew fun v w hvw => ?_
      exact (honly v w hvw).imp_right .inl

theorem Tracks.add {additions : List Addition} (hg : g.Tracks (Recorded additions))
    (addition : Addition) :
    (g.add addition).Tracks (Recorded (additions ++ [addition])) := by
  have hother : (∀ a b, addition ≠ .equality a b) →
      Recorded (additions ++ [addition]) = Recorded additions := by
    intro hne
    funext a b
    simp [Recorded, (hne a b).symm]
  cases addition with
  | node v =>
    rw [hother (by simp)]
    exact hg.congr rfl
  | edge a b =>
    rw [hother (by simp)]
    refine hg.congr ?_
    rw [Interference.add, addEdge]
    split <;> rfl
  | equality a b => exact hg.addEquality a b

theorem tracks_ofAdditions (additions : List Addition) :
    (ofAdditions additions).Tracks (Recorded additions) := by
  induction additions using List.reverseRecOn with
  | nil =>
    have hnone : ∀ v, (ofAdditions []).parents.get? v = none := fun _ => rfl
    have hroot : ∀ v, (ofAdditions []).root v = v := fun _ => rfl
    refine ⟨fun v p hp => ?_, fun v => hroot v ▸ .refl v, fun a b hab => ?_⟩
    · rw [Link, hnone] at hp
      cases hp
    · exact absurd hab List.not_mem_nil
  | append_singleton additions addition ih =>
    rw [ofAdditions_concat]
    exact ih.add addition

theorem nodes_ascending (g : Interference) : g.nodes.Pairwise (· < ·) := by
  refine List.pairwise_map.2 (g.adjacency.ascending.imp fun {a b} hab => ?_)
  exact Nat.compare_eq_lt.1 hab

def members (g : Interference) (v : ValueId) : List ValueId :=
  g.nodes.filter fun w => g.root w = g.root v

theorem mem_members : w ∈ g.members v ↔ g.contains w = true ∧ g.root w = g.root v := by
  rw [members, List.mem_filter, mem_nodes, decide_eq_true_eq]

theorem members_ascending (g : Interference) (v : ValueId) : (g.members v).Pairwise (· < ·) :=
  g.nodes_ascending.filter _

/-- Each class stands where its first member stands among the nodes. -/
theorem classes_eq (g : Interference) : g.classes = g.nodes.filterMap fun v =>
    if (g.members v).head? = some v ∧ 2 ≤ (g.members v).length then some (g.members v)
    else none := by
  have hmembers : ∀ v, ((g.nodes.map fun w => (w, g.root w)).filter fun d =>
      d.2 = g.root v).map (·.1) = g.members v := by
    intro v
    rw [List.filter_map, List.map_map]
    exact List.map_id _
  rw [classes, List.filterMap_map]
  refine congrArg (fun u => g.nodes.filterMap u) (funext fun v => ?_)
  simp only [Function.comp, hmembers]
  rcases hlist : g.members v with _ | ⟨u, _ | ⟨w, rest⟩⟩
  · simp
  · simp
  · simp

theorem mem_classes {c : List ValueId} : c ∈ g.classes ↔
    ∃ v ∈ g.nodes, c = g.members v ∧ c.head? = some v ∧ 2 ≤ c.length := by
  rw [classes_eq, List.mem_filterMap]
  constructor
  · rintro ⟨v, hv, hclass⟩
    split at hclass
    · rename_i hc
      obtain rfl := Option.some.inj hclass
      exact ⟨v, hv, rfl, hc⟩
    · cases hclass
  · rintro ⟨v, hv, rfl, hc⟩
    exact ⟨v, hv, if_pos hc⟩

theorem classes_ascending (g : Interference) : g.classes.Pairwise fun c d =>
    ∀ v ∈ c.head?, ∀ w ∈ d.head?, v < w := by
  rw [classes_eq, List.pairwise_filterMap]
  refine g.nodes_ascending.imp fun {v w} hlt c hc d hd x hx y hy => ?_
  have hhead : ∀ {v : ValueId} {c : List ValueId}, (if (g.members v).head? = some v ∧
      2 ≤ (g.members v).length then some (g.members v) else none) = some c → c.head? = some v := by
    intro v c hclass
    split at hclass
    · rename_i hc
      exact Option.some.inj hclass ▸ hc.1
    · cases hclass
  obtain rfl := Option.some.inj ((hhead hc).symm.trans hx)
  obtain rfl := Option.some.inj ((hhead hd).symm.trans hy)
  exact hlt

/-- The classes are the nodes that are equal to some value, two of them at least. -/
theorem Tracks.mem_classes_iff (hg : g.Tracks R) {c : List ValueId} : c ∈ g.classes ↔
    2 ≤ c.length ∧ c.Pairwise (· < ·) ∧
      ∃ v, ∀ w, w ∈ c ↔ g.contains w = true ∧ Relation.EqvGen R v w := by
  have hequal : ∀ v w, g.root w = g.root v ↔ Relation.EqvGen R v w := fun v w =>
    eq_comm.trans hg.root_eq_iff
  rw [mem_classes]
  constructor
  · rintro ⟨v, -, rfl, -, hlength⟩
    refine ⟨hlength, g.members_ascending v, v, fun w => ?_⟩
    rw [mem_members, hequal]
  · rintro ⟨hlength, hascending, v, hmem⟩
    obtain ⟨u, hu⟩ : ∃ u, c.head? = some u := by
      cases c with
      | nil => simp at hlength
      | cons u rest => exact ⟨u, rfl⟩
    obtain ⟨hnode, hvu⟩ := (hmem u).1 (List.mem_of_mem_head? hu)
    have hsame : c = g.members u := by
      have hlt : ∀ {as : List ValueId}, as.Pairwise (· < ·) →
          as.Pairwise fun a b => compare a b = .lt := fun has =>
        has.imp fun hab => Nat.compare_eq_lt.2 hab
      refine OrderedSet.eq_of_mem_iff (hlt hascending) (hlt (g.members_ascending u)) fun w => ?_
      rw [hmem, mem_members, ← hequal, hg.root_eq_iff.2 hvu]
    exact ⟨u, mem_nodes.2 hnode, hsame, hu, hlength⟩

end Midend.Interference
