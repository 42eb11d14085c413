import Mathlib.Data.List.Basic
import Mathlib.Data.List.Sort
import Mathlib.Tactic.Common
import Midend.OrderedMap
import Midend.OrderedSet

namespace Midend

theorem OrderedSet.eq_of_mem_iff {α : Type} [Ord α] [Std.TransOrd α] [Std.LawfulEqOrd α]
    {as bs : List α} (ha : as.Pairwise fun a b => compare a b = .lt)
    (hb : bs.Pairwise fun a b => compare a b = .lt) (h : ∀ a, a ∈ as ↔ a ∈ bs) : as = bs := by
  have hirrefl : Std.Irrefl fun a b : α => compare a b = .lt := ⟨fun a ha => by simp at ha⟩
  have hantisymm : Std.Antisymm fun a b : α => compare a b = .lt :=
    ⟨fun a b hab hba => by simp [Std.OrientedCmp.not_lt_of_lt hab] at hba⟩
  exact ha.eq_of_mem_iff hb h

namespace OrderedMap

variable {κ ν : Type} [Ord κ] {m : OrderedMap κ ν} {k : κ} {v : ν}

theorem values_mapValues {μ : Type} (u : ν → μ) (m : OrderedMap κ ν) :
    (m.mapValues u).values = m.values.map u := by
  simp [values, mapValues]

/-- Setting an entry takes away one occurrence of the value that stood there and adds one of the new
value. -/
theorem count_values_insertEntry [Std.TransOrd κ] [DecidableEq ν] (w : ν) {es : List (κ × ν)}
    (h : es.Pairwise fun a b => compare a.1 b.1 = .lt) :
    ((insertEntry k v es).map (·.2)).count w +
        (if (es.find? fun e => compare k e.1 == .eq).map (·.2) = some w then 1 else 0) =
      (es.map (·.2)).count w + if v = w then 1 else 0 := by
  induction es with
  | nil => simp [insertEntry, List.count_singleton]
  | cons e es ih =>
    obtain ⟨hd, tl⟩ := List.pairwise_cons.1 h
    unfold insertEntry
    split
    · rename_i hlt
      -- All further keys are greater, so no entry has this one.
      have hnone : ((e :: es).find? fun e => compare k e.1 == .eq) = none := by
        rw [List.find?_eq_none]
        intro x hx
        have hkx : compare k x.1 = .lt := by
          rcases List.mem_cons.1 hx with rfl | hx
          · exact hlt
          · exact Std.TransCmp.lt_trans hlt (hd x hx)
        simp [hkx]
      rw [hnone]
      simp [List.count_cons]
    · rename_i heq
      have hfind : ((e :: es).find? fun e => compare k e.1 == .eq) = some e := by simp [heq]
      rw [hfind]
      simp [List.count_cons]
      omega
    · rename_i hgt
      have hfind : ((e :: es).find? fun e => compare k e.1 == .eq) =
          es.find? fun e => compare k e.1 == .eq := by simp [hgt]
      have := ih tl
      rw [hfind]
      simp only [List.map_cons, List.count_cons]
      omega

variable [Std.LawfulEqOrd κ]

theorem eq_of_mem_entries {es : List (κ × ν)} (h : es.Pairwise fun a b => compare a.1 b.1 = .lt)
    {w : ν} (hv : (k, v) ∈ es) (hw : (k, w) ∈ es) : v = w := by
  induction es with
  | nil => simp at hv
  | cons e es ih =>
    obtain ⟨hd, tl⟩ := List.pairwise_cons.1 h
    rcases List.mem_cons.1 hv with rfl | hv'
    · rcases List.mem_cons.1 hw with hw' | hw'
      · exact (Prod.mk.inj hw').2.symm
      · have := hd _ hw'
        simp at this
    · rcases List.mem_cons.1 hw with rfl | hw'
      · have := hd _ hv'
        simp at this
      · exact ih tl hv' hw'

theorem get?_eq_some_iff : m.get? k = some v ↔ (k, v) ∈ m.entries := by
  constructor
  · intro h
    obtain ⟨e, he, rfl⟩ := Option.map_eq_some_iff.1 h
    have hk : k = e.1 := by simpa using List.find?_some he
    subst hk
    exact List.mem_of_find?_eq_some he
  · intro h
    obtain ⟨e, he⟩ : ∃ e, m.entries.find? (fun e => compare k e.1 == .eq) = some e := by
      rw [← Option.isSome_iff_exists, List.find?_isSome]
      exact ⟨_, h, by simp⟩
    have hk : k = e.1 := by simpa using List.find?_some he
    have hmem : (k, e.2) ∈ m.entries := hk ▸ List.mem_of_find?_eq_some he
    rw [get?, he, Option.map_some, eq_of_mem_entries m.ascending hmem h]

theorem mem_toList {e : κ × ν} : e ∈ m.toList ↔ m.get? e.1 = some e.2 := get?_eq_some_iff.symm

theorem toList_eq_of_get? [Std.TransOrd κ] {n : OrderedMap κ ν} (h : ∀ k, m.get? k = n.get? k) :
    m.toList = n.toList := by
  have hirrefl : Std.Irrefl fun a b : κ × ν => compare a.1 b.1 = .lt :=
    ⟨fun a ha => by simp at ha⟩
  have hantisymm : Std.Antisymm fun a b : κ × ν => compare a.1 b.1 = .lt :=
    ⟨fun a b hab hba => by simp [Std.OrientedCmp.not_lt_of_lt hab] at hba⟩
  refine m.ascending.eq_of_mem_iff n.ascending fun e => ?_
  exact mem_toList.trans ((h e.1).symm ▸ mem_toList.symm)

theorem mem_keys [Std.TransOrd κ] : k ∈ m.keys ↔ ∃ v, m.get? k = some v := by
  rw [mem_keys_iff, contains, Option.isSome_iff_exists]

theorem mem_values : v ∈ m.values ↔ ∃ k, m.get? k = some v := by
  simp only [values, List.mem_map, get?_eq_some_iff]
  exact ⟨fun ⟨e, he, hv⟩ => ⟨e.1, hv ▸ he⟩, fun ⟨k, hk⟩ => ⟨_, hk, rfl⟩⟩

theorem keys_nodup (m : OrderedMap κ ν) : m.keys.Nodup := by
  refine List.pairwise_map.2 (m.ascending.imp ?_)
  rintro a b hab heq
  simp [heq] at hab

theorem size_insert [Std.TransOrd κ] [DecidableEq κ] (h : m.get? k = none) :
    (m.insert k v).size = m.size + 1 := by
  have hperm : (m.insert k v).keys.Perm (k :: m.keys) := by
    refine (List.perm_ext_iff_of_nodup (keys_nodup _) (List.nodup_cons.2 ⟨?_, keys_nodup m⟩)).2 ?_
    · rw [mem_keys, h]
      simp
    · intro j
      rw [List.mem_cons, mem_keys, mem_keys, get?_insert]
      by_cases hj : j = k <;> simp [hj]
  simpa [keys, size] using hperm.length_eq

theorem values_nodup (m : OrderedMap κ ν)
    (h : ∀ a b v, m.get? a = some v → m.get? b = some v → a = b) : m.values.Nodup := by
  refine List.pairwise_map.2 (m.ascending.imp_of_mem fun {a b} ha hb hab heq => ?_)
  have hkey := h a.1 b.1 b.2 (get?_eq_some_iff.2 (heq ▸ ha)) (get?_eq_some_iff.2 hb)
  simp [hkey] at hab

theorem isEmpty_iff : m.isEmpty = true ↔ ∀ k, m.get? k = none := by
  simp only [isEmpty, List.isEmpty_iff]
  constructor
  · intro h k
    simp [get?, h]
  · intro h
    cases he : m.entries with
    | nil => rfl
    | cons e es =>
      have : m.get? e.1 = some e.2 := get?_eq_some_iff.2 (by simp [he])
      rw [h] at this
      cases this

section Count

variable [DecidableEq ν]

theorem count_values_insert [Std.TransOrd κ] (m : OrderedMap κ ν) (k : κ) (v w : ν) :
    (m.insert k v).values.count w + (if m.get? k = some w then 1 else 0) =
      m.values.count w + if v = w then 1 else 0 :=
  count_values_insertEntry w m.ascending

theorem count_values_filter_entries (w : ν) {es : List (κ × ν)}
    (h : es.Pairwise fun a b => compare a.1 b.1 = .lt) :
    ((es.filter fun e => compare k e.1 != .eq).map (·.2)).count w +
        (if (es.find? fun e => compare k e.1 == .eq).map (·.2) = some w then 1 else 0) =
      (es.map (·.2)).count w := by
  induction es with
  | nil => simp
  | cons e es ih =>
    obtain ⟨hd, tl⟩ := List.pairwise_cons.1 h
    by_cases hk : compare k e.1 = .eq
    · have hkeep : (es.filter fun e => compare k e.1 != .eq) = es := by
        rw [List.filter_eq_self]
        intro x hx
        have hlt := hd x hx
        rw [Std.LawfulEqOrd.eq_of_compare hk]
        simp [hlt]
      have hfind : ((e :: es).find? fun e => compare k e.1 == .eq) = some e := by simp [hk]
      have hfilter : ((e :: es).filter fun e => compare k e.1 != .eq) = es := by
        rw [List.filter_cons_of_neg (by simp [hk]), hkeep]
      rw [hfind, hfilter]
      simp [List.count_cons]
    · have hfind : ((e :: es).find? fun e => compare k e.1 == .eq) =
          es.find? fun e => compare k e.1 == .eq := by
        rw [List.find?_cons_of_neg (by simpa using hk)]
      have := ih tl
      rw [hfind, List.filter_cons_of_pos (by simpa using hk)]
      simp only [List.map_cons, List.count_cons]
      omega

theorem count_values_erase (m : OrderedMap κ ν) (k : κ) (w : ν) :
    (m.erase k).values.count w + (if m.get? k = some w then 1 else 0) = m.values.count w :=
  count_values_filter_entries w m.ascending

end Count

theorem get?_foldl_insert [Std.TransOrd κ] [DecidableEq κ] (es : List (κ × ν))
    (m : OrderedMap κ ν) (k : κ) :
    (es.foldl (fun m e => m.insert e.1 e.2) m).get? k =
      ((es.reverse.find? fun e => e.1 = k).map (·.2)).or (m.get? k) := by
  induction es generalizing m with
  | nil => simp
  | cons e es ih =>
    rw [List.foldl_cons, ih, get?_insert, List.reverse_cons, List.find?_append]
    cases hf : es.reverse.find? fun e => e.1 = k with
    | some x => simp
    | none =>
      by_cases hk : k = e.1
      · subst hk
        simp
      · have hk' : ¬ e.1 = k := fun h => hk h.symm
        simp [hk, hk']

theorem get?_ofList [Std.TransOrd κ] [DecidableEq κ] (es : List (κ × ν)) (k : κ) :
    (ofList es).get? k = (es.reverse.find? fun e => e.1 = k).map (·.2) := by
  have h := get?_foldl_insert es empty k
  have he : (empty : OrderedMap κ ν).get? k = none := rfl
  rw [he, Option.or_none] at h
  exact h

theorem get?_ofList_iff [Std.TransOrd κ] [DecidableEq κ] {es : List (κ × ν)}
    (h : ∀ k v w, (k, v) ∈ es → (k, w) ∈ es → v = w) :
    (ofList es).get? k = some v ↔ (k, v) ∈ es := by
  rw [get?_ofList]
  constructor
  · intro hget
    obtain ⟨e, he, rfl⟩ := Option.map_eq_some_iff.1 hget
    have hk : e.1 = k := by simpa using List.find?_some he
    have hmem := List.mem_reverse.1 (List.mem_of_find?_eq_some he)
    rw [← hk]
    exact hmem
  · intro hmem
    obtain ⟨e, he⟩ : ∃ e, es.reverse.find? (fun e => e.1 = k) = some e := by
      rw [← Option.isSome_iff_exists, List.find?_isSome]
      exact ⟨(k, v), List.mem_reverse.2 hmem, by simp⟩
    have hk : e.1 = k := by simpa using List.find?_some he
    have hmem' : (k, e.2) ∈ es := by
      rw [← hk]
      exact List.mem_reverse.1 (List.mem_of_find?_eq_some he)
    rw [he, Option.map_some, h k v e.2 hmem hmem']

end OrderedMap

end Midend
