import Midend.Proofs.IndexSet
import Midend.Proofs.IndexSet.Words

namespace Midend.IndexSet

variable {s t : IndexSet} {i j k b : Nat}

theorem contains_mul_add (s : IndexSet) (k : Nat) (hb : b < 64) :
    s.contains (64 * k + b) = (s.words.getD k 0).toNat.testBit b := by
  rw [contains_eq_testBit, Nat.mul_add_div (by decide), Nat.mul_add_mod, Nat.div_eq_of_lt hb,
    Nat.mod_eq_of_lt hb, Nat.add_zero]

theorem contains_of_testBit (h : (s.words.getD k 0).toNat.testBit b = true) :
    s.contains (64 * k + b) = true := by
  rw [contains_mul_add s k (lt_of_testBit h), h]

theorem lt_size_of_contains (h : s.contains i = true) : i / 64 < s.words.size := by
  by_contra hle
  rw [contains_eq_testBit, Array.getD_eq_getD_getElem?,
    Array.getElem?_eq_none (Nat.le_of_not_lt hle)] at h
  simp at h

theorem eq_of_contains (hsize : s.words.size = t.words.size)
    (h : ∀ i, s.contains i = t.contains i) : s = t := by
  refine IndexSet.ext (Array.ext hsize fun k hk hk' => ?_)
  have hword : s.words.getD k 0 = t.words.getD k 0 := by
    refine UInt64.toNat_inj.1 (Nat.eq_of_testBit_eq fun b => ?_)
    by_cases hb : b < 64
    · rw [← contains_mul_add s k hb, ← contains_mul_add t k hb, h]
    · rw [testBit_eq_false hb, testBit_eq_false hb]
  simpa [hk, hk'] using hword

theorem testBit_and_not_bitMask (w : UInt64) (i b : Nat) :
    (w &&& ~~~ bitMask i).toNat.testBit b = (decide (i % 64 ≠ b) && w.toNat.testBit b) := by
  have hnot : (~~~ bitMask i).toNat.testBit b = (decide (b < 64) && !decide (i % 64 = b)) := by
    rw [← testBit_bitMask]
    exact BitVec.getLsbD_not
  rw [UInt64.toNat_and, Nat.testBit_and, hnot]
  by_cases hb : b < 64
  · simp [hb, Bool.and_comm]
  · simp [testBit_eq_false hb]

theorem getD_erase (s : IndexSet) (i k : Nat) : (s.erase i).words.getD k 0 =
    if i / 64 = k then s.words.getD k 0 &&& ~~~ bitMask i else s.words.getD k 0 := by
  simp only [erase, Array.getD_eq_getD_getElem?, Array.getElem?_modify]
  split
  · cases s.words[k]? <;> simp
  · rfl

@[simp]
theorem contains_erase (s : IndexSet) (i j : Nat) :
    (s.erase i).contains j = (decide (j ≠ i) && s.contains j) := by
  rw [contains_eq_testBit, contains_eq_testBit, getD_erase]
  by_cases hd : i / 64 = j / 64
  · rw [if_pos hd, testBit_and_not_bitMask]
    have hiff : j ≠ i ↔ i % 64 ≠ j % 64 :=
      not_congr ⟨fun h => by rw [h], fun h => (Nat.ext_div_mod hd h).symm⟩
    rw [decide_eq_decide.2 hiff]
  · have hne : j ≠ i := fun h => hd (by rw [h])
    simp [hd, hne]

@[simp]
theorem contains_clear (s : IndexSet) (i : Nat) : s.clear.contains i = false := by
  rw [contains_eq_testBit]
  simp only [clear, Array.getD_eq_getD_getElem?, Array.getElem?_map]
  cases s.words[i / 64]? <;> simp

theorem contains_padded (s : IndexSet) (n i : Nat) :
    (⟨s.padded n⟩ : IndexSet).contains i = s.contains i := by
  rw [contains_eq_testBit, contains_eq_testBit, getD_padded]

theorem size_padded (s : IndexSet) (n : Nat) : (s.padded n).size = max s.words.size n := by
  simp only [padded, Array.size_append, Array.size_replicate]
  omega

theorem size_union (s t : IndexSet) :
    (s.union t).words.size = max s.words.size t.words.size := by
  simp only [union, Array.size_zipWith, size_padded]
  omega

theorem getD_union (s t : IndexSet) (k : Nat) :
    (s.union t).words.getD k 0 = s.words.getD k 0 ||| t.words.getD k 0 := by
  rw [← getD_padded s (max s.words.size t.words.size),
    ← getD_padded t (max s.words.size t.words.size)]
  simp only [union, Array.getD_eq_getD_getElem?, Array.getElem?_zipWith]
  by_cases hk : k < max s.words.size t.words.size
  · rw [Array.getElem?_eq_getElem (lt_size_padded s hk),
      Array.getElem?_eq_getElem (lt_size_padded t hk)]
    rfl
  · rw [Array.getElem?_eq_none (by rw [size_padded]; omega),
      Array.getElem?_eq_none (by rw [size_padded]; omega)]
    rfl

@[simp]
theorem contains_union (s t : IndexSet) (i : Nat) :
    (s.union t).contains i = (s.contains i || t.contains i) := by
  rw [contains_eq_testBit, contains_eq_testBit, contains_eq_testBit, getD_union, UInt64.toNat_or,
    Nat.testBit_or]

/-- A union changes a word exactly if it brings a member. -/
theorem tryUnion_fst_iff :
    (s.tryUnion t).1 = true ↔ ∃ i, t.contains i = true ∧ s.contains i = false := by
  have hsize : (s.padded (s.union t).words.size).size = (s.union t).words.size := by
    rw [size_padded, size_union]
    omega
  have hsame : (s.union t).words = s.padded (s.union t).words.size ↔
      ∀ i, t.contains i = true → s.contains i = true := by
    constructor
    · intro h i hi
      have hu : (s.union t).contains i = s.contains i := by
        rw [← contains_padded s (s.union t).words.size, ← h]
      rw [← hu, contains_union, hi, Bool.or_true]
    · intro h
      refine congrArg words (eq_of_contains (t := ⟨s.padded (s.union t).words.size⟩) hsize.symm
        fun i => ?_)
      rw [contains_padded, contains_union]
      cases ht : t.contains i with
      | false => rw [Bool.or_false]
      | true => rw [h i ht, Bool.true_or]
  rw [tryUnion, bne_iff_ne, ne_eq, hsame]
  simp

theorem isEmpty_iff : s.isEmpty = true ↔ ∀ i, s.contains i = false := by
  rw [isEmpty, Array.all_eq_true]
  constructor
  · intro h i
    rw [contains_eq_testBit, Array.getD_eq_getD_getElem?]
    by_cases hk : i / 64 < s.words.size
    · rw [Array.getElem?_eq_getElem hk, Option.getD_some, eq_of_beq (h _ hk)]
      exact Nat.zero_testBit _
    · rw [Array.getElem?_eq_none (Nat.le_of_not_lt hk)]
      exact Nat.zero_testBit _
  · intro h k hk
    refine beq_iff_eq.2 (eq_zero_iff_testBit.2 fun b => Bool.eq_false_iff.2 fun hb => ?_)
    have hword : s.words.getD k 0 = s.words[k] := by simp [hk]
    rw [← hword] at hb
    exact Bool.eq_false_iff.1 (h _) (contains_of_testBit hb)

theorem intersects_iff :
    s.intersects t = true ↔ ∃ i, s.contains i = true ∧ t.contains i = true := by
  rw [intersects, Array.any_eq_true]
  simp only [Array.size_zipWith, Array.getElem_zipWith, bne_iff_ne]
  constructor
  · rintro ⟨k, hk, hand⟩
    obtain ⟨b, hs, ht⟩ := and_ne_zero_iff.1 hand
    refine ⟨64 * k + b, contains_of_testBit ?_, contains_of_testBit ?_⟩
    · simpa [Nat.lt_of_lt_of_le hk (Nat.min_le_left _ _)] using hs
    · simpa [Nat.lt_of_lt_of_le hk (Nat.min_le_right _ _)] using ht
  · rintro ⟨i, hs, ht⟩
    have hks := lt_size_of_contains hs
    have hkt := lt_size_of_contains ht
    refine ⟨i / 64, Nat.lt_min.2 ⟨hks, hkt⟩, and_ne_zero_iff.2 ⟨i % 64, ?_, ?_⟩⟩
    · simpa [contains_eq_testBit, hks] using hs
    · simpa [contains_eq_testBit, hkt] using ht

theorem mem_toList : i ∈ s.toList ↔ s.contains i = true := by
  simp only [toList, List.mem_flatMap, List.mem_range, List.mem_map, mem_bitsOf]
  constructor
  · rintro ⟨k, -, b, hb, rfl⟩
    exact contains_of_testBit hb
  · intro hi
    refine ⟨i / 64, lt_size_of_contains hi, i % 64, ?_, Nat.div_add_mod i 64⟩
    rw [← contains_eq_testBit, hi]

theorem toList_ascending (s : IndexSet) : s.toList.Pairwise (· < ·) := by
  refine List.pairwise_flatMap.2 ⟨fun k _ => ?_, ?_⟩
  · rw [List.pairwise_map]
    exact (bitsOf_ascending _).imp fun h => Nat.add_lt_add_left h _
  · refine List.pairwise_lt_range.imp fun {k l} hkl x hx y hy => ?_
    obtain ⟨b, hb, rfl⟩ := List.mem_map.1 hx
    obtain ⟨c, -, rfl⟩ := List.mem_map.1 hy
    have hlt : b < 64 := lt_of_testBit (mem_bitsOf.1 hb)
    omega

theorem length_toList (s : IndexSet) : s.toList.length = s.count := by
  have hwords : (List.range s.words.size).map (fun k => bitCount (s.words.getD k 0)) =
      s.words.toList.map bitCount :=
    List.ext_getElem (by simp) fun k hk _ => by
      have hsize : k < s.words.size := by simpa using hk
      simp [hsize]
  rw [toList, List.length_flatMap]
  simp only [List.length_map, length_bitsOf]
  rw [hwords, count, List.sum_eq_foldr, List.foldr_map]

end Midend.IndexSet
