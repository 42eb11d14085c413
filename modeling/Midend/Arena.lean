import Midend.Handle

namespace Midend

/-- A table of entries of type `α`, addressed by handles of kind `e`. An erased entry leaves an
empty slot behind, so a handle never comes to mean something else. -/
@[ext]
structure Arena (e : Entity) (α : Type) where
  slots : Array (Option α) := #[]
deriving DecidableEq, Repr, Inhabited

namespace Arena

variable {e : Entity} {α : Type}

def get? (a : Arena e α) (h : Handle e) : Option α := a.slots.getD h.index none

def contains (a : Arena e α) (h : Handle e) : Bool := (a.get? h).isSome

def size (a : Arena e α) : Nat := a.slots.size

def next (a : Arena e α) : Handle e := ⟨a.slots.size⟩

def push (a : Arena e α) (x : α) : Arena e α := ⟨a.slots.push (some x)⟩

def modify (a : Arena e α) (h : Handle e) (f : α → α) : Arena e α :=
  ⟨a.slots.modify h.index (Option.map f)⟩

def erase (a : Arena e α) (h : Handle e) : Arena e α := ⟨a.slots.modify h.index fun _ => none⟩

def handles (a : Arena e α) : List (Handle e) := (List.range a.slots.size).map Handle.mk

def live (a : Arena e α) : List (Handle e) := a.handles.filter a.contains

def count (a : Arena e α) : Nat := a.live.length

@[simp]
theorem size_push (a : Arena e α) (x : α) : (a.push x).size = a.size + 1 := by
  simp [size, push]

@[simp]
theorem size_modify (a : Arena e α) (h : Handle e) (f : α → α) :
    (a.modify h f).size = a.size := by
  simp [size, modify]

@[simp]
theorem size_erase (a : Arena e α) (h : Handle e) : (a.erase h).size = a.size := by
  simp [size, erase]

theorem get?_eq_none_of_size_le {a : Arena e α} {h : Handle e} (le : a.size ≤ h.index) :
    a.get? h = none := by
  have : a.slots.size ≤ h.index := le
  simp [get?, this]

@[simp]
theorem get?_next (a : Arena e α) : a.get? a.next = none :=
  get?_eq_none_of_size_le (Nat.le_refl _)

@[simp]
theorem get?_push (a : Arena e α) (x : α) (h : Handle e) :
    (a.push x).get? h = if h = a.next then some x else a.get? h := by
  by_cases hn : h = a.next
  · subst hn
    simp [get?, push, next]
  · have hi : h.index ≠ a.slots.size := fun hi => hn (Handle.ext hi)
    simp [get?, push, hn, Array.getElem?_push, hi]

@[simp]
theorem get?_modify (a : Arena e α) (h k : Handle e) (f : α → α) :
    (a.modify h f).get? k = if k = h then (a.get? k).map f else a.get? k := by
  by_cases hk : k = h
  · subst hk
    simp [get?, modify, Array.getElem?_modify]
    cases a.slots[k.index]? <;> rfl
  · have hi : h.index ≠ k.index := fun hi => hk (Handle.ext hi.symm)
    simp [get?, modify, Array.getElem?_modify, hk, hi]

@[simp]
theorem get?_erase (a : Arena e α) (h k : Handle e) :
    (a.erase h).get? k = if k = h then none else a.get? k := by
  by_cases hk : k = h
  · subst hk
    simp [get?, erase, Array.getElem?_modify]
    cases a.slots[k.index]? <;> rfl
  · have hi : h.index ≠ k.index := fun hi => hk (Handle.ext hi.symm)
    simp [get?, erase, Array.getElem?_modify, hk, hi]

theorem get?_modify_eq_some {a : Arena e α} {h k : Handle e} {f : α → α} {x : α} :
    (a.modify h f).get? k = some x ↔ ∃ y, a.get? k = some y ∧ (if k = h then f y else y) = x := by
  rw [get?_modify]
  split
  · rw [Option.map_eq_some_iff]
  · simp

theorem modify_eq_self {a : Arena e α} {h : Handle e} {f : α → α}
    (hf : ∀ x, a.get? h = some x → f x = x) : a.modify h f = a := by
  refine Arena.ext (Array.ext (by simp [modify]) fun i hi hi' => ?_)
  simp only [modify, Array.getElem_modify]
  split
  · rename_i heq
    have hget : a.get? h = a.slots[i] := by
      rw [get?, Array.getD_eq_getD_getElem?, heq, Array.getElem?_eq_getElem hi', Option.getD_some]
    cases hx : a.slots[i] with
    | none => rfl
    | some x => rw [Option.map_some, hf x (hget.trans hx)]
  · rfl

@[simp]
theorem contains_modify (a : Arena e α) (h k : Handle e) (f : α → α) :
    (a.modify h f).contains k = a.contains k := by
  rw [contains, contains, get?_modify]
  split <;> simp

theorem contains_erase (a : Arena e α) (h k : Handle e) :
    (a.erase h).contains k = (decide (k ≠ h) && a.contains k) := by
  rw [contains, get?_erase]
  by_cases hk : k = h <;> simp [hk, contains]

theorem mem_live {a : Arena e α} {h : Handle e} : h ∈ a.live ↔ a.contains h := by
  simp only [live, handles, List.mem_filter, List.mem_map, List.mem_range, and_iff_right_iff_imp]
  intro hc
  refine ⟨h.index, Nat.lt_of_not_le fun le => ?_, rfl⟩
  simp [contains, get?_eq_none_of_size_le le] at hc

end Arena

end Midend
