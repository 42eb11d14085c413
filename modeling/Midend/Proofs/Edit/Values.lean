import Mathlib.Tactic.Common
import Midend.Edit.Basic
import Midend.Proofs.OrderedMap

namespace Midend

namespace Value

/-- No entry of the use list is zero. -/
def Counted (v : Value) : Prop := ∀ u, v.uses.get? u ≠ some 0

theorem Counted.addUses {v : Value} (h : v.Counted) (user : User) (n : Nat) :
    (v.addUses user n).Counted := by
  intro u
  unfold Value.addUses
  split
  · exact h u
  · rw [OrderedMap.get?_insert]
    split
    · intro h0
      have := Option.some.inj h0
      omega
    · exact h u

theorem Counted.dropUse {v : Value} (h : v.Counted) (user : User) : (v.dropUse user).Counted := by
  intro u
  unfold Value.dropUse
  split
  · rw [OrderedMap.get?_insert]
    split
    · intro h0
      have := Option.some.inj h0
      omega
    · exact h u
  · rw [OrderedMap.get?_erase]
    split
    · simp
    · exact h u

theorem Counted.dropUses {v : Value} (h : v.Counted) (user : User) : (v.dropUses user).Counted := by
  intro u
  unfold Value.dropUses
  rw [OrderedMap.get?_erase]
  split
  · simp
  · exact h u

@[simp]
theorem definition_addUses (v : Value) (user : User) (n : Nat) :
    (v.addUses user n).definition = v.definition := by
  unfold addUses
  split <;> rfl

@[simp]
theorem kind_addUses (v : Value) (user : User) (n : Nat) : (v.addUses user n).kind = v.kind := by
  unfold addUses
  split <;> rfl

@[simp]
theorem definition_dropUse (v : Value) (user : User) :
    (v.dropUse user).definition = v.definition := by
  unfold dropUse
  split <;> rfl

@[simp]
theorem kind_dropUse (v : Value) (user : User) : (v.dropUse user).kind = v.kind := by
  unfold dropUse
  split <;> rfl

@[simp]
theorem definition_dropUses (v : Value) (user : User) :
    (v.dropUses user).definition = v.definition := rfl

@[simp]
theorem kind_dropUses (v : Value) (user : User) : (v.dropUses user).kind = v.kind := rfl

theorem isUnused_iff {v : Value} (h : v.Counted) : v.isUnused = true ↔ ∀ u, v.usesBy u = 0 := by
  rw [isUnused, OrderedMap.isEmpty_iff]
  constructor
  · intro hn u
    simp [usesBy, hn u]
  · intro hz u
    have hu := hz u
    have hc := h u
    unfold usesBy at hu
    cases hg : v.uses.get? u with
    | none => rfl
    | some n =>
      rw [hg] at hu hc
      exact absurd (congrArg some hu) hc

theorem mem_users_iff {v : Value} (h : v.Counted) {u : User} {n : Nat} :
    (u, n) ∈ v.users ↔ v.usesBy u = n ∧ 0 < n := by
  have hmem : (u, n) ∈ v.users ↔ v.uses.get? u = some n := OrderedMap.mem_toList
  have hc := h u
  rw [hmem, usesBy]
  cases hg : v.uses.get? u with
  | none => simp; omega
  | some m =>
    rw [hg] at hc
    have hm : m ≠ 0 := fun h0 => hc (congrArg some h0)
    simp only [Option.some.injEq, Option.getD_some]
    constructor
    · rintro rfl
      exact ⟨rfl, by omega⟩
    · exact fun h => h.1

end Value

namespace Func

@[simp]
theorem modifyValue_values (f : Func) (v : ValueId) (u : Value → Value) :
    (f.modifyValue v u).values = f.values.modify v u := rfl

@[simp]
theorem modifyValue_insts (f : Func) (v : ValueId) (u : Value → Value) :
    (f.modifyValue v u).insts = f.insts := rfl

@[simp]
theorem modifyValue_phis (f : Func) (v : ValueId) (u : Value → Value) :
    (f.modifyValue v u).phis = f.phis := rfl

/-- Folding one change over the operands changes each of them once for each time it occurs. -/
theorem get?_foldl_modify {α : Type} (c : α → Value → Value) (key : α → ValueId) (as : List α)
    (vs : Arena .value Value) (w : ValueId) :
    (as.foldl (fun vs a => vs.modify (key a) (c a)) vs).get? w =
      (vs.get? w).map fun val => (as.filter fun a => key a = w).foldl (fun val a => c a val) val := by
  induction as generalizing vs with
  | nil => simp
  | cons a as ih =>
    rw [List.foldl_cons, ih, Arena.get?_modify]
    by_cases ha : key a = w
    · rw [if_pos ha.symm, List.filter_cons_of_pos (by simpa using ha), Option.map_map]
      rfl
    · rw [if_neg fun h => ha h.symm, List.filter_cons_of_neg (by simpa using ha)]

theorem foldl_modifyValue (f : Func) (c : Value → Value) (vs : List ValueId) :
    vs.foldl (fun f v => f.modifyValue v c) f =
      { f with values := vs.foldl (fun a v => a.modify v c) f.values } := by
  induction vs generalizing f with
  | nil => rfl
  | cons v vs ih =>
    rw [List.foldl_cons, ih]
    rfl

theorem releaseUses_eq (f : Func) (user : User) (vs : List ValueId) :
    f.releaseUses user vs =
      { f with values := vs.foldl (fun a v => a.modify v (·.dropUses user)) f.values } :=
  foldl_modifyValue f (·.dropUses user) vs

@[simp]
theorem size_foldl_modify {α : Type} (c : α → Value → Value) (key : α → ValueId) (as : List α)
    (vs : Arena .value Value) :
    (as.foldl (fun vs a => vs.modify (key a) (c a)) vs).size = vs.size := by
  induction as generalizing vs with
  | nil => rfl
  | cons a as ih => rw [List.foldl_cons, ih, Arena.size_modify]

theorem foldl_dropUses (user : User) (as : List ValueId) (val : Value) :
    (as.foldl (fun val _ => val.dropUses user) val) =
      if as = [] then val else val.dropUses user := by
  induction as generalizing val with
  | nil => rfl
  | cons a as ih =>
    rw [List.foldl_cons, ih, if_neg (List.cons_ne_nil a as)]
    split
    · rfl
    · ext1
      · rfl
      · rfl
      · refine OrderedMap.ext ?_
        simp [Value.dropUses, OrderedMap.erase]

theorem get?_releaseUses (f : Func) (user : User) (vs : List ValueId) (w : ValueId) :
    (f.releaseUses user vs).values.get? w =
      (f.values.get? w).map fun val => if w ∈ vs then val.dropUses user else val := by
  rw [releaseUses_eq]
  refine (get?_foldl_modify (fun _ val => val.dropUses user) id vs f.values w).trans ?_
  congr 1
  funext val
  rw [foldl_dropUses]
  have hiff : (vs.filter fun a => id a = w) = [] ↔ w ∉ vs := by
    simp only [id_eq, List.filter_eq_nil_iff, decide_eq_true_eq]
    exact ⟨fun h hw => h w hw rfl, fun h a ha he => h (he ▸ ha)⟩
  by_cases hw : w ∈ vs
  · rw [if_neg fun h => hiff.1 h hw, if_pos hw]
  · rw [if_pos (hiff.2 hw), if_neg hw]

end Func

end Midend
