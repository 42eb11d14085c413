namespace Midend

/-- A finite set, stored as its strictly ascending members. -/
@[ext]
structure OrderedSet (α : Type) [Ord α] where
  members : List α
  ascending : members.Pairwise fun a b => compare a b = .lt

namespace OrderedSet

variable {α : Type} [Ord α]

def empty : OrderedSet α := ⟨[], .nil⟩

instance : EmptyCollection (OrderedSet α) := ⟨empty⟩

instance : Inhabited (OrderedSet α) := ⟨empty⟩

instance [DecidableEq α] : DecidableEq (OrderedSet α) := fun a b =>
  decidable_of_iff (a.members = b.members) OrderedSet.ext_iff.symm

instance [Repr α] : Repr (OrderedSet α) := ⟨fun s p => reprPrec s.members p⟩

instance : Membership α (OrderedSet α) := ⟨fun s a => a ∈ s.members⟩

def toList (s : OrderedSet α) : List α := s.members

def size (s : OrderedSet α) : Nat := s.members.length

def isEmpty (s : OrderedSet α) : Bool := s.members.isEmpty

def contains (s : OrderedSet α) (a : α) : Bool := s.members.any fun b => compare a b == .eq

def insertMember (a : α) : List α → List α
  | [] => [a]
  | b :: rest =>
    match compare a b with
    | .lt => a :: b :: rest
    | .eq => b :: rest
    | .gt => b :: insertMember a rest

theorem mem_insertMember_of {a b : α} {bs : List α} (h : b ∈ insertMember a bs) :
    b = a ∨ b ∈ bs := by
  induction bs with
  | nil => simpa [insertMember] using h
  | cons c rest ih =>
    unfold insertMember at h
    split at h
    · simpa using h
    · exact .inr h
    · rcases List.mem_cons.1 h with h | h
      · exact .inr (h ▸ List.mem_cons_self)
      · exact (ih h).imp_right (List.mem_cons_of_mem _)

theorem insertMember_ascending [Std.TransOrd α] (a : α) {bs : List α}
    (h : bs.Pairwise fun a b => compare a b = .lt) :
    (insertMember a bs).Pairwise fun a b => compare a b = .lt := by
  induction bs with
  | nil => simp [insertMember]
  | cons b rest ih =>
    obtain ⟨hd, tl⟩ := List.pairwise_cons.1 h
    unfold insertMember
    split
    · rename_i hlt
      refine List.pairwise_cons.2 ⟨fun c hc => ?_, h⟩
      rcases List.mem_cons.1 hc with rfl | hc
      · exact hlt
      · exact Std.TransCmp.lt_trans hlt (hd c hc)
    · exact h
    · rename_i hgt
      refine List.pairwise_cons.2 ⟨fun c hc => ?_, ih tl⟩
      rcases mem_insertMember_of hc with rfl | hc
      · exact Std.OrientedCmp.gt_iff_lt.1 hgt
      · exact hd c hc

def insert [Std.TransOrd α] (s : OrderedSet α) (a : α) : OrderedSet α :=
  ⟨insertMember a s.members, insertMember_ascending a s.ascending⟩

def erase (s : OrderedSet α) (a : α) : OrderedSet α :=
  ⟨s.members.filter fun b => compare a b != .eq, s.ascending.filter _⟩

def ofList [Std.TransOrd α] (as : List α) : OrderedSet α := as.foldl insert empty

theorem mem_def {s : OrderedSet α} {a : α} : a ∈ s ↔ a ∈ s.members := Iff.rfl

@[simp]
theorem mem_toList {s : OrderedSet α} {a : α} : a ∈ s.toList ↔ a ∈ s := Iff.rfl

theorem toList_nodup [Std.LawfulEqOrd α] (s : OrderedSet α) : s.toList.Nodup := by
  refine s.ascending.imp ?_
  rintro a b hab rfl
  simp at hab

@[simp]
theorem notMem_empty (a : α) : a ∉ (∅ : OrderedSet α) := List.not_mem_nil

@[simp]
theorem contains_iff_mem [Std.TransOrd α] [Std.LawfulEqOrd α] {s : OrderedSet α} {a : α} :
    s.contains a ↔ a ∈ s := by
  simp [contains, mem_def]

theorem mem_insertMember [Std.LawfulEqOrd α] {a b : α} {bs : List α} :
    b ∈ insertMember a bs ↔ b = a ∨ b ∈ bs := by
  refine ⟨mem_insertMember_of, ?_⟩
  induction bs with
  | nil => simp [insertMember]
  | cons c rest ih =>
    unfold insertMember
    split
    · simp
    · rename_i heq
      rw [Std.LawfulEqOrd.eq_of_compare heq]
      rintro (rfl | h)
      · exact List.mem_cons_self
      · exact h
    · rintro (h | h)
      · exact List.mem_cons_of_mem _ (ih (.inl h))
      · rcases List.mem_cons.1 h with h | h
        · exact h ▸ List.mem_cons_self
        · exact List.mem_cons_of_mem _ (ih (.inr h))

@[simp]
theorem mem_insert [Std.TransOrd α] [Std.LawfulEqOrd α] {s : OrderedSet α} {a b : α} :
    b ∈ s.insert a ↔ b = a ∨ b ∈ s := mem_insertMember

@[simp]
theorem mem_erase [Std.TransOrd α] [Std.LawfulEqOrd α] {s : OrderedSet α} {a b : α} :
    b ∈ s.erase a ↔ b ≠ a ∧ b ∈ s := by
  simp only [erase, mem_def, List.mem_filter, bne_iff_ne, ne_eq, Std.compare_eq_iff_eq]
  rw [and_comm, eq_comm]

@[simp]
theorem mem_foldl_insert [Std.TransOrd α] [Std.LawfulEqOrd α] {as : List α} {s : OrderedSet α}
    {b : α} : b ∈ as.foldl insert s ↔ b ∈ as ∨ b ∈ s := by
  induction as generalizing s with
  | nil => simp
  | cons a as ih => simp only [List.foldl_cons, ih, mem_insert, List.mem_cons]; grind

@[simp]
theorem mem_ofList [Std.TransOrd α] [Std.LawfulEqOrd α] {as : List α} {b : α} :
    b ∈ ofList as ↔ b ∈ as := by
  simp only [ofList, mem_foldl_insert, or_iff_left_iff_imp]
  exact fun h => absurd h (notMem_empty b)

end OrderedSet

end Midend
