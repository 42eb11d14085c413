import Mathlib.Data.List.Sort
import Mathlib.Data.Nat.Bitwise
import Midend.IndexSet

namespace Midend

variable {w : UInt64} {b : Nat}

theorem eq_zero_iff_testBit : w = 0 ↔ ∀ b, w.toNat.testBit b = false := by
  rw [← UInt64.toNat_inj, UInt64.toNat_zero]
  exact ⟨fun h b => by rw [h, Nat.zero_testBit], Nat.zero_of_testBit_eq_false⟩

theorem lt_of_testBit (h : w.toNat.testBit b = true) : b < 64 := by
  by_contra hle
  have hlt : w.toNat < 2 ^ b := w.toNat_lt.trans_le (Nat.pow_le_pow_right (by decide) (not_lt.1 hle))
  rw [Nat.testBit_lt_two_pow hlt] at h
  cases h

theorem testBit_eq_false (hb : ¬ b < 64) : w.toNat.testBit b = false :=
  Bool.eq_false_iff.2 fun h => hb (lt_of_testBit h)

theorem and_ne_zero_iff {v : UInt64} :
    w &&& v ≠ 0 ↔ ∃ b, w.toNat.testBit b = true ∧ v.toNat.testBit b = true := by
  rw [ne_eq, eq_zero_iff_testBit, not_forall]
  simp only [UInt64.toNat_and, Nat.testBit_and, Bool.not_eq_false, Bool.and_eq_true]

theorem testBit_lowestBit (hw : w ≠ 0) : w.toNat.testBit (lowestBit w) = true :=
  BitVec.getLsbD_true_ctz_of_ne_zero fun h => hw (UInt64.toBitVec_inj.1 h)

theorem lowestBit_le (h : w.toNat.testBit b = true) : lowestBit w ≤ b := by
  by_contra hlt
  have hfalse : w.toNat.testBit b = false := BitVec.getLsbD_false_of_lt_ctz (not_le.1 hlt)
  rw [hfalse] at h
  cases h

theorem exists_eq_two_pow_mul {n k : Nat} (hk : n.testBit k = true)
    (hlow : ∀ j < k, n.testBit j = false) : ∃ m, n = 2 ^ k * (2 * m + 1) := by
  have hmod : n % 2 ^ k = 0 := by
    refine Nat.zero_of_testBit_eq_false fun j => ?_
    rw [Nat.testBit_mod_two_pow]
    by_cases hj : j < k
    · simp [hlow j hj]
    · simp [hj]
  have hodd : n / 2 ^ k % 2 = 1 := by
    rw [Nat.testBit_eq_decide_div_mod_eq] at hk
    exact of_decide_eq_true hk
  have hhalf := Nat.div_add_mod (n / 2 ^ k) 2
  rw [hodd] at hhalf
  refine ⟨n / 2 ^ k / 2, ?_⟩
  rw [hhalf, Nat.mul_div_cancel' (Nat.dvd_of_mod_eq_zero hmod)]

/-- Taking away one turns the lowest set bit off and the bits below it on. -/
theorem testBit_sub_one {n k : Nat} (hk : n.testBit k = true)
    (hlow : ∀ j < k, n.testBit j = false) (b : Nat) :
    (n - 1).testBit b = (decide (b < k) || (decide (b ≠ k) && n.testBit b)) := by
  obtain ⟨m, rfl⟩ := exists_eq_two_pow_mul hk hlow
  have hpos : 0 < 2 ^ k := Nat.two_pow_pos k
  have hsub : 2 ^ k * (2 * m + 1) - 1 = 2 ^ k * (2 * m) + (2 ^ k - 1) := by
    rw [Nat.mul_succ, Nat.add_sub_assoc hpos]
  rw [hsub, Nat.testBit_two_pow_mul_add _ (Nat.sub_lt hpos Nat.one_pos), Nat.testBit_two_pow_mul]
  rcases Nat.lt_trichotomy b k with hb | rfl | hb
  · simp [hb]
  · simp
  · obtain ⟨j, rfl⟩ : ∃ j, b = k + (j + 1) := ⟨b - k - 1, by omega⟩
    have hm : (2 * m + 1) / 2 = m := by omega
    simp [Nat.testBit_succ, hm]

theorem testBit_clearLowest (hw : w ≠ 0) (b : Nat) :
    (clearLowest w).toNat.testBit b = (decide (b ≠ lowestBit w) && w.toNat.testBit b) := by
  have hlow : ∀ j < lowestBit w, w.toNat.testBit j = false := fun j hj =>
    BitVec.getLsbD_false_of_lt_ctz hj
  rw [clearLowest, UInt64.toNat_and, toNat_sub_one hw, Nat.testBit_and,
    testBit_sub_one (testBit_lowestBit hw) hlow]
  rcases Nat.lt_trichotomy b (lowestBit w) with hb | rfl | hb
  · simp [hlow b hb]
  · simp
  · simp [hb.ne', hb.not_gt]

namespace IndexSet

theorem mem_bitsOf : b ∈ bitsOf w ↔ w.toNat.testBit b = true := by
  induction w using bitsOf.induct with
  | case1 => simp [bitsOf]
  | case2 w hw ih =>
    rw [bitsOf, if_neg hw, List.mem_cons, ih, testBit_clearLowest hw]
    constructor
    · rintro (rfl | h)
      · exact testBit_lowestBit hw
      · exact (Bool.and_eq_true_iff.1 h).2
    · intro h
      by_cases hb : b = lowestBit w
      · exact .inl hb
      · exact .inr (by simp [hb, h])

theorem bitsOf_ascending (w : UInt64) : (bitsOf w).Pairwise (· < ·) := by
  induction w using bitsOf.induct with
  | case1 => simp [bitsOf]
  | case2 w hw ih =>
    rw [bitsOf, if_neg hw, List.pairwise_cons]
    refine ⟨fun b hb => ?_, ih⟩
    rw [mem_bitsOf, testBit_clearLowest hw, Bool.and_eq_true, decide_eq_true_eq] at hb
    exact Nat.lt_of_le_of_ne (lowestBit_le hb.2) (Ne.symm hb.1)

theorem bitsOf_eq_filter (w : UInt64) :
    bitsOf w = (List.range 64).filter fun b => w.toNat.testBit b := by
  refine (bitsOf_ascending w).eq_of_mem_iff (List.pairwise_lt_range.filter _) fun b => ?_
  rw [mem_bitsOf, List.mem_filter, List.mem_range]
  exact ⟨fun h => ⟨lt_of_testBit h, h⟩, And.right⟩

theorem cpopNatRec_eq_countP (x : BitVec 64) (n : Nat) :
    x.cpopNatRec n 0 = (List.range n).countP x.getLsbD := by
  induction n with
  | zero => rfl
  | succ n ih =>
    rw [BitVec.cpopNatRec_succ, BitVec.cpopNatRec_add, ih, List.range_succ, List.countP_append,
      List.countP_singleton]
    cases x.getLsbD n <;> simp

theorem length_bitsOf (w : UInt64) : (bitsOf w).length = bitCount w := by
  rw [bitsOf_eq_filter, ← List.countP_eq_length_filter, bitCount, BitVec.toNat_cpop,
    cpopNatRec_eq_countP]
  rfl

end IndexSet

end Midend
