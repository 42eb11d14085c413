import Mathlib.Data.Finset.Card
import Mathlib.Logic.Function.Basic
import Midend.Proofs.IndexSet.Members

namespace Midend.IndexSet

variable {s t : IndexSet}

/-- The numbers that `s` tells to be members are those of `S`. -/
def Denotes (s : IndexSet) (S : Finset Nat) : Prop := ∀ i, s.contains i = true ↔ i ∈ S

namespace Denotes

variable {S T : Finset Nat}

theorem withCapacity (capacity : Nat) : (withCapacity capacity).Denotes ∅ := fun i => by simp

theorem ofList (is : List Nat) : (ofList is).Denotes is.toFinset := fun i => by
  rw [contains_ofList, List.mem_toFinset]

theorem insert (h : s.Denotes S) (i : Nat) : (s.insert i).Denotes (Insert.insert i S) := fun j => by
  rw [contains_insert, Bool.or_eq_true, decide_eq_true_eq, h j, Finset.mem_insert]

theorem erase (h : s.Denotes S) (i : Nat) : (s.erase i).Denotes (S.erase i) := fun j => by
  rw [contains_erase, Bool.and_eq_true, decide_eq_true_eq, h j, Finset.mem_erase]

theorem clear (s : IndexSet) : s.clear.Denotes ∅ := fun i => by simp

theorem union (hs : s.Denotes S) (ht : t.Denotes T) : (s.union t).Denotes (S ∪ T) := fun i => by
  rw [contains_union, Bool.or_eq_true, hs i, ht i, Finset.mem_union]

theorem contains_eq (h : s.Denotes S) (i : Nat) : s.contains i = decide (i ∈ S) :=
  Bool.eq_iff_iff.2 ((h i).trans decide_eq_true_iff.symm)

theorem tryUnion_fst (hs : s.Denotes S) (ht : t.Denotes T) :
    (s.tryUnion t).1 = decide (S ⊂ S ∪ T) := by
  refine Bool.eq_iff_iff.2 ?_
  rw [tryUnion_fst_iff, decide_eq_true_eq, Finset.ssubset_iff_of_subset Finset.subset_union_left]
  constructor
  · rintro ⟨i, hit, his⟩
    rw [hs.contains_eq, decide_eq_false_iff_not] at his
    exact ⟨i, Finset.mem_union_right S ((ht i).1 hit), his⟩
  · rintro ⟨i, hi, his⟩
    have hit : i ∈ T := (Finset.mem_union.1 hi).resolve_left his
    exact ⟨i, (ht i).2 hit, by rw [hs.contains_eq, decide_eq_false his]⟩

theorem isEmpty_iff (h : s.Denotes S) : s.isEmpty = true ↔ S = ∅ := by
  rw [IndexSet.isEmpty_iff, Finset.eq_empty_iff_forall_notMem]
  exact forall_congr' fun i => by rw [h.contains_eq, decide_eq_false_iff_not]

theorem intersects_iff (hs : s.Denotes S) (ht : t.Denotes T) :
    s.intersects t = true ↔ ∃ i, i ∈ S ∧ i ∈ T := by
  rw [IndexSet.intersects_iff]
  exact exists_congr fun i => and_congr (hs i) (ht i)

theorem mem_toList (h : s.Denotes S) (i : Nat) : i ∈ s.toList ↔ i ∈ S :=
  IndexSet.mem_toList.trans (h i)

theorem count_eq (h : s.Denotes S) : s.count = S.card := by
  have hnodup : s.toList.Nodup := s.toList_ascending.imp Nat.ne_of_lt
  have hfinset : s.toList.toFinset = S := Finset.ext fun i => by
    rw [List.mem_toFinset, h.mem_toList]
  rw [← length_toList, ← List.toFinset_card_of_nodup hnodup, hfinset]

end Denotes

/-- A call on some of any number of sets, which are named by numbers. -/
inductive Change where
  | make (x capacity : Nat)
  | collect (x : Nat) (is : List Nat)
  | insert (x i : Nat)
  | erase (x i : Nat)
  | clear (x : Nat)
  | union (x y : Nat)
deriving DecidableEq, Repr

namespace Change

/-- What a call answers, if it answers anything, and the sets after it. -/
def run (sets : Nat → IndexSet) : Change → Option Bool × (Nat → IndexSet)
  | make x capacity => (none, Function.update sets x (withCapacity capacity))
  | collect x is => (none, Function.update sets x (ofList is))
  | insert x i =>
    let (new, s) := (sets x).tryInsert i
    (some new, Function.update sets x s)
  | erase x i =>
    let (present, s) := (sets x).tryErase i
    (some present, Function.update sets x s)
  | clear x => (none, Function.update sets x (sets x).clear)
  | union x y =>
    let (changed, s) := (sets x).tryUnion (sets y)
    (some changed, Function.update sets x s)

/-- The same call on finite sets of numbers. The answer is whether membership changes. -/
def ideal (members : Nat → Finset Nat) : Change → Option Bool × (Nat → Finset Nat)
  | make x _ => (none, Function.update members x ∅)
  | collect x is => (none, Function.update members x is.toFinset)
  | insert x i =>
    (some (decide (i ∉ members x)), Function.update members x (Insert.insert i (members x)))
  | erase x i => (some (decide (i ∈ members x)), Function.update members x ((members x).erase i))
  | clear x => (none, Function.update members x ∅)
  | union x y =>
    (some (decide (members x ⊂ members x ∪ members y)),
      Function.update members x (members x ∪ members y))

end Change

def answers {σ : Type} (step : σ → Change → Option Bool × σ) (state : σ) :
    List Change → List (Option Bool) × σ
  | [] => ([], state)
  | c :: changes =>
    let (answer, next) := step state c
    let (rest, last) := answers step next changes
    (answer :: rest, last)

theorem Denotes.update {sets : Nat → IndexSet} {members : Nat → Finset Nat}
    (h : ∀ x, (sets x).Denotes (members x)) {S : Finset Nat} (hs : s.Denotes S) (x y : Nat) :
    (Function.update sets x s y).Denotes (Function.update members x S y) := by
  rw [Function.update_apply, Function.update_apply]
  split
  · exact hs
  · exact h y

theorem Change.run_denotes {sets : Nat → IndexSet} {members : Nat → Finset Nat}
    (h : ∀ x, (sets x).Denotes (members x)) (c : Change) :
    (c.run sets).1 = (c.ideal members).1 ∧
      ∀ x, ((c.run sets).2 x).Denotes ((c.ideal members).2 x) := by
  cases c with
  | make x capacity => exact ⟨rfl, Denotes.update h (.withCapacity capacity) x⟩
  | collect x is => exact ⟨rfl, Denotes.update h (.ofList is) x⟩
  | insert x i =>
    refine ⟨congrArg some ?_, Denotes.update h ((h x).insert i) x⟩
    show (!(sets x).contains i) = _
    rw [(h x).contains_eq, decide_not]
  | erase x i =>
    exact ⟨congrArg some ((h x).contains_eq i), Denotes.update h ((h x).erase i) x⟩
  | clear x => exact ⟨rfl, Denotes.update h (.clear _) x⟩
  | union x y =>
    exact ⟨congrArg some ((h x).tryUnion_fst (h y)), Denotes.update h ((h x).union (h y)) x⟩

theorem answers_denote {sets : Nat → IndexSet} {members : Nat → Finset Nat}
    (h : ∀ x, (sets x).Denotes (members x)) (changes : List Change) :
    (answers Change.run sets changes).1 = (answers Change.ideal members changes).1 ∧
      ∀ x, ((answers Change.run sets changes).2 x).Denotes
        ((answers Change.ideal members changes).2 x) := by
  induction changes generalizing sets members with
  | nil => exact ⟨rfl, h⟩
  | cons c changes ih =>
    obtain ⟨hanswer, hnext⟩ := c.run_denotes h
    obtain ⟨hrest, hlast⟩ := ih hnext
    exact ⟨congrArg₂ List.cons hanswer hrest, hlast⟩

/-- Any sequence of calls gives the answers that it gives on finite sets of numbers. Afterwards each
set holds the numbers of its finite set: it tells them from all others, past its last word too, and
it is empty, counts, lists and meets other sets as that set does. -/
theorem refines_finite_sets (changes : List Change) :
    let (answers₁, sets) := answers Change.run (fun _ => ∅) changes
    let (answers₂, members) := answers Change.ideal (fun _ => ∅) changes
    answers₁ = answers₂ ∧ ∀ x,
      (∀ i, (sets x).contains i = true ↔ i ∈ members x) ∧
      ((sets x).isEmpty = true ↔ members x = ∅) ∧
      (sets x).count = (members x).card ∧
      ((∀ i, i ∈ (sets x).toList ↔ i ∈ members x) ∧ (sets x).toList.Pairwise (· < ·)) ∧
      ∀ y, (sets x).intersects (sets y) = true ↔ ∃ i, i ∈ members x ∧ i ∈ members y := by
  have hempty : ∀ _ : Nat, (∅ : IndexSet).Denotes ∅ := fun _ i => by simp
  obtain ⟨hanswers, hsets⟩ := answers_denote hempty changes
  refine ⟨hanswers, fun x => ⟨hsets x, (hsets x).isEmpty_iff, (hsets x).count_eq,
    ⟨(hsets x).mem_toList, toList_ascending _⟩, fun y => (hsets x).intersects_iff (hsets y)⟩⟩

example : (ofList [128, 64, 0, 127, 63]).toList = [0, 63, 64, 127, 128] := by cbv

end Midend.IndexSet
