import Mathlib.Data.Nat.Bitwise
import Midend.Handle
import Midend.IndexSet

namespace Midend

theorem bitMask_toNat (i : Nat) : (bitMask i).toNat = 2 ^ (i % 64) := by
  have hlt : i % 64 < 64 := Nat.mod_lt _ (by decide)
  have hpow : 2 ^ (i % 64) < 2 ^ 64 := Nat.pow_lt_pow_right (by decide) hlt
  have hmod : i % 64 % 18446744073709551616 = i % 64 := Nat.mod_eq_of_lt (by omega)
  simp only [bitMask, UInt64.toNat_shiftLeft, UInt64.toNat_one, Nat.toUInt64_eq,
    UInt64.toNat_ofNat', Nat.reducePow, hmod, Nat.mod_mod, Nat.shiftLeft_eq, Nat.one_mul]
  exact Nat.mod_eq_of_lt hpow

theorem and_bitMask_ne_zero (w : UInt64) (i : Nat) :
    (w &&& bitMask i != 0) = w.toNat.testBit (i % 64) := by
  have h : w &&& bitMask i = 0 ↔ w.toNat.testBit (i % 64) = false := by
    rw [← UInt64.toNat_inj, UInt64.toNat_and, bitMask_toNat, UInt64.toNat_zero,
      Nat.and_two_pow]
    cases w.toNat.testBit (i % 64) <;> simp
  cases hb : w.toNat.testBit (i % 64)
  · simp [h.2 hb]
  · have hne : w &&& bitMask i ≠ 0 := fun h0 => by simp [h.1 h0] at hb
    simpa using hne

theorem testBit_bitMask (i k : Nat) : (bitMask i).toNat.testBit k = decide (i % 64 = k) := by
  rw [bitMask_toNat, Nat.testBit_two_pow]

namespace IndexSet

theorem contains_eq_testBit (s : IndexSet) (i : Nat) :
    s.contains i = (s.words.getD (i / 64) 0).toNat.testBit (i % 64) :=
  and_bitMask_ne_zero _ _

@[simp]
theorem contains_empty (i : Nat) : (∅ : IndexSet).contains i = false := by
  rw [contains_eq_testBit]
  simp [EmptyCollection.emptyCollection, empty]

@[simp]
theorem contains_withCapacity (n i : Nat) : (withCapacity n).contains i = false := by
  rw [contains_eq_testBit]
  simp only [withCapacity, Array.getD_eq_getD_getElem?, Array.getElem?_replicate]
  split <;> simp

theorem getD_padded (s : IndexSet) (n k : Nat) : (s.padded n).getD k 0 = s.words.getD k 0 := by
  simp only [padded, Array.getD_eq_getD_getElem?, Array.getElem?_append, Array.getElem?_replicate]
  by_cases hk : k < s.words.size
  · simp [hk]
  · simp only [hk, if_false, Array.getElem?_eq_none (Nat.le_of_not_lt hk)]
    split <;> rfl

theorem lt_size_padded (s : IndexSet) {n k : Nat} (h : k < n) : k < (s.padded n).size := by
  simp only [padded, Array.size_append, Array.size_replicate]
  omega

@[simp]
theorem contains_insert (s : IndexSet) (i j : Nat) :
    (s.insert i).contains j = (decide (j = i) || s.contains j) := by
  rw [contains_eq_testBit, contains_eq_testBit, ← getD_padded s (i / 64 + 1) (j / 64)]
  have hin : i / 64 < (s.padded (i / 64 + 1)).size := lt_size_padded s (Nat.lt_succ_self _)
  simp only [insert, Array.getD_eq_getD_getElem?, Array.getElem?_modify]
  by_cases hd : i / 64 = j / 64
  · rw [if_pos hd, ← hd, Array.getElem?_eq_getElem hin]
    simp only [Option.map_some, Option.getD_some, UInt64.toNat_or, Nat.testBit_or, testBit_bitMask]
    have hiff : j = i ↔ i % 64 = j % 64 :=
      ⟨fun h => by rw [h], fun h => (Nat.ext_div_mod hd h).symm⟩
    rw [Bool.or_comm, decide_eq_decide.2 hiff]
  · have hne : j ≠ i := fun h => hd (by rw [h])
    rw [if_neg hd]
    simp [hne]

theorem contains_insert_index {e : Entity} {s : IndexSet} {a b : Handle e} :
    (s.insert a.index).contains b.index = true ↔ b = a ∨ s.contains b.index = true := by
  rw [contains_insert, Bool.or_eq_true, decide_eq_true_eq, Handle.ext_iff]

theorem contains_foldl_insert {α : Type} (u : α → Nat) (as : List α) (s : IndexSet) (i : Nat) :
    (as.foldl (fun t a => t.insert (u a)) s).contains i = true ↔
      (∃ a ∈ as, u a = i) ∨ s.contains i = true := by
  induction as generalizing s with
  | nil => simp
  | cons a as ih =>
    rw [List.foldl_cons, ih, contains_insert]
    simp only [List.mem_cons, exists_eq_or_imp, Bool.or_eq_true, decide_eq_true_eq]
    constructor
    · rintro (h | rfl | h)
      · exact .inl (.inr h)
      · exact .inl (.inl rfl)
      · exact .inr h
    · rintro ((rfl | h) | h)
      · exact .inr (.inl rfl)
      · exact .inl h
      · exact .inr (.inr h)

@[simp]
theorem contains_ofList (is : List Nat) (i : Nat) : (ofList is).contains i = true ↔ i ∈ is := by
  have h : (ofList is).contains i = true ↔ _ := contains_foldl_insert id is empty i
  have he : empty.contains i = false := contains_empty i
  simpa [he] using h

end IndexSet

end Midend
