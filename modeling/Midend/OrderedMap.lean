namespace Midend

/-- A finite map, stored as entries with strictly ascending keys. -/
@[ext]
structure OrderedMap (κ ν : Type) [Ord κ] where
  entries : List (κ × ν)
  ascending : entries.Pairwise fun a b => compare a.1 b.1 = .lt

namespace OrderedMap

variable {κ ν : Type} [Ord κ]

def empty : OrderedMap κ ν := ⟨[], .nil⟩

instance : EmptyCollection (OrderedMap κ ν) := ⟨empty⟩

instance : Inhabited (OrderedMap κ ν) := ⟨empty⟩

instance [DecidableEq κ] [DecidableEq ν] : DecidableEq (OrderedMap κ ν) := fun a b =>
  decidable_of_iff (a.entries = b.entries) OrderedMap.ext_iff.symm

instance [Repr κ] [Repr ν] : Repr (OrderedMap κ ν) := ⟨fun m p => reprPrec m.entries p⟩

def toList (m : OrderedMap κ ν) : List (κ × ν) := m.entries

def keys (m : OrderedMap κ ν) : List κ := m.entries.map (·.1)

def values (m : OrderedMap κ ν) : List ν := m.entries.map (·.2)

def size (m : OrderedMap κ ν) : Nat := m.entries.length

def isEmpty (m : OrderedMap κ ν) : Bool := m.entries.isEmpty

def get? (m : OrderedMap κ ν) (k : κ) : Option ν :=
  (m.entries.find? fun e => compare k e.1 == .eq).map (·.2)

def contains (m : OrderedMap κ ν) (k : κ) : Bool := (m.get? k).isSome

/-- Puts an entry where its key belongs, in place of an entry with that key. -/
def insertEntry (k : κ) (v : ν) : List (κ × ν) → List (κ × ν)
  | [] => [(k, v)]
  | e :: rest =>
    match compare k e.1 with
    | .lt => (k, v) :: e :: rest
    | .eq => (k, v) :: rest
    | .gt => e :: insertEntry k v rest

theorem mem_insertEntry {k : κ} {v : ν} {a : κ × ν} {es : List (κ × ν)}
    (h : a ∈ insertEntry k v es) : a = (k, v) ∨ a ∈ es := by
  induction es with
  | nil => simpa [insertEntry] using h
  | cons e rest ih =>
    unfold insertEntry at h
    split at h
    · simpa using h
    · rcases List.mem_cons.1 h with h | h
      · exact .inl h
      · exact .inr (List.mem_cons_of_mem _ h)
    · rcases List.mem_cons.1 h with h | h
      · exact .inr (h ▸ List.mem_cons_self)
      · exact (ih h).imp_right (List.mem_cons_of_mem _)

theorem insertEntry_ascending [Std.TransOrd κ] [Std.LawfulEqOrd κ] (k : κ) (v : ν)
    {es : List (κ × ν)} (h : es.Pairwise fun a b => compare a.1 b.1 = .lt) :
    (insertEntry k v es).Pairwise fun a b => compare a.1 b.1 = .lt := by
  induction es with
  | nil => simp [insertEntry]
  | cons e rest ih =>
    obtain ⟨hd, tl⟩ := List.pairwise_cons.1 h
    unfold insertEntry
    split
    · rename_i hlt
      refine List.pairwise_cons.2 ⟨fun a ha => ?_, h⟩
      rcases List.mem_cons.1 ha with rfl | ha
      · exact hlt
      · exact Std.TransCmp.lt_trans hlt (hd a ha)
    · rename_i heq
      have hk : k = e.1 := Std.LawfulEqOrd.eq_of_compare heq
      exact List.pairwise_cons.2 ⟨fun a ha => hk ▸ hd a ha, tl⟩
    · rename_i hgt
      refine List.pairwise_cons.2 ⟨fun a ha => ?_, ih tl⟩
      rcases mem_insertEntry ha with rfl | ha
      · exact Std.OrientedCmp.gt_iff_lt.1 hgt
      · exact hd a ha

def insert [Std.TransOrd κ] [Std.LawfulEqOrd κ] (m : OrderedMap κ ν) (k : κ) (v : ν) :
    OrderedMap κ ν :=
  ⟨insertEntry k v m.entries, insertEntry_ascending k v m.ascending⟩

def erase (m : OrderedMap κ ν) (k : κ) : OrderedMap κ ν :=
  ⟨m.entries.filter fun e => compare k e.1 != .eq, m.ascending.filter _⟩

def mapValues {μ : Type} (f : ν → μ) (m : OrderedMap κ ν) : OrderedMap κ μ :=
  ⟨m.entries.map fun e => (e.1, f e.2), m.ascending.map _ fun _ _ h => h⟩

/-- The map with the entries of a list, later entries replacing earlier ones of the same key. -/
def ofList [Std.TransOrd κ] [Std.LawfulEqOrd κ] (es : List (κ × ν)) : OrderedMap κ ν :=
  es.foldl (fun m e => m.insert e.1 e.2) empty

@[simp]
theorem get?_empty (k : κ) : (∅ : OrderedMap κ ν).get? k = none := rfl

theorem find?_insertEntry [Std.TransOrd κ] [Std.LawfulEqOrd κ] [DecidableEq κ] (k k' : κ) (v : ν)
    (es : List (κ × ν)) :
    ((insertEntry k v es).find? fun e => compare k' e.1 == .eq).map (·.2) =
      if k' = k then some v else (es.find? fun e => compare k' e.1 == .eq).map (·.2) := by
  induction es with
  | nil => by_cases h : k' = k <;> simp [insertEntry, h]
  | cons e rest ih =>
    unfold insertEntry
    split
    · by_cases h : k' = k <;> simp [h]
    · rename_i heq
      have hk : k = e.1 := Std.LawfulEqOrd.eq_of_compare heq
      by_cases h : k' = k <;> simp [← hk, h]
    · rename_i hgt
      by_cases h : k' = e.1
      · have hk : k' ≠ k := by
          rintro rfl
          simp [← h] at hgt
        simp [← h, hk]
      · simpa [h] using ih

@[simp]
theorem get?_insert [Std.TransOrd κ] [Std.LawfulEqOrd κ] [DecidableEq κ] (m : OrderedMap κ ν)
    (k k' : κ) (v : ν) : (m.insert k v).get? k' = if k' = k then some v else m.get? k' :=
  find?_insertEntry k k' v m.entries

@[simp]
theorem get?_erase [Std.TransOrd κ] [Std.LawfulEqOrd κ] [DecidableEq κ] (m : OrderedMap κ ν)
    (k k' : κ) : (m.erase k).get? k' = if k' = k then none else m.get? k' := by
  by_cases h : k' = k
  · simp [get?, erase, h]
  · obtain ⟨es, _⟩ := m
    simp only [get?, erase, h, if_false, List.find?_filter]
    congr 2
    funext e
    by_cases he : k' = e.1
    · have hk : k ≠ e.1 := fun hke => h (he.trans hke.symm)
      simp [← he, Ne.symm h]
    · simp [he]

@[simp]
theorem get?_mapValues {μ : Type} (f : ν → μ) (m : OrderedMap κ ν) (k : κ) :
    (m.mapValues f).get? k = (m.get? k).map f := by
  simp only [get?, mapValues, List.find?_map, Option.map_map]
  rfl

theorem mem_keys_iff [Std.TransOrd κ] [Std.LawfulEqOrd κ] {m : OrderedMap κ ν} {k : κ} :
    k ∈ m.keys ↔ m.contains k := by
  simp [keys, contains, get?]

end OrderedMap

end Midend
