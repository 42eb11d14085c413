import Mathlib.Data.List.Nodup
import Mathlib.Data.List.Perm.Subperm
import Midend.Arena

namespace Midend.Arena

variable {e : Entity} {α β : Type} {a b : Arena e α} {k : Handle e} {p q : α → Bool}

def map (u : α → β) (a : Arena e α) : Arena e β := ⟨a.slots.map (Option.map u)⟩

@[simp]
theorem size_map (u : α → β) (a : Arena e α) : (a.map u).size = a.size := by
  simp [size, map]

theorem getElem_slots {n : Nat} (h : n < a.slots.size) : a.slots[n] = a.get? ⟨n⟩ := by
  simp [get?, h]

theorem get?_map (u : α → β) (a : Arena e α) (h : Handle e) :
    (a.map u).get? h = (a.get? h).map u := by
  simp only [get?, map, Array.getD_eq_getD_getElem?, Array.getElem?_map]
  cases a.slots[h.index]? <;> rfl

theorem ext_get? (hsize : a.size = b.size) (h : ∀ k, a.get? k = b.get? k) : a = b := by
  refine Arena.ext (Array.ext hsize fun n hn hn' => ?_)
  rw [getElem_slots, getElem_slots, h]

theorem next_map (u : α → β) (a : Arena e α) : (a.map u).next = a.next :=
  Handle.ext (size_map u a)

theorem map_push (u : α → β) (a : Arena e α) (x : α) :
    (a.push x).map u = (a.map u).push (u x) := by
  refine ext_get? (by simp) fun k => ?_
  rw [get?_map, get?_push, get?_push, get?_map, next_map]
  split <;> rfl

theorem map_erase (u : α → β) (a : Arena e α) (h : Handle e) :
    (a.erase h).map u = (a.map u).erase h := by
  refine ext_get? (by simp) fun k => ?_
  rw [get?_map, get?_erase, get?_erase, get?_map]
  split <;> rfl

theorem map_modify {u : α → β} (a : Arena e α) (h : Handle e) {c : α → α}
    (hc : ∀ x, u (c x) = u x) : (a.modify h c).map u = a.map u := by
  refine ext_get? (by simp) fun k => ?_
  rw [get?_map, get?_modify, get?_map]
  split
  · rw [Option.map_map, Function.comp_def]
    simp only [hc]
  · rfl

theorem mem_live_of_get? {x : α} (h : a.get? k = some x) : k ∈ a.live :=
  mem_live.2 (Option.isSome_iff_exists.2 ⟨x, h⟩)

theorem live_ascending (a : Arena e α) : a.live.Pairwise fun h k => h.index < k.index :=
  .filter _ (List.pairwise_map.2 List.pairwise_lt_range)

theorem nodup_live (a : Arena e α) : a.live.Nodup :=
  a.live_ascending.imp fun hlt heq => Nat.ne_of_lt hlt (congrArg Handle.index heq)

def liveWith (a : Arena e α) (p : α → Bool) : List (Handle e) :=
  a.live.filter fun k => (a.get? k).any p

theorem nodup_liveWith (a : Arena e α) (p : α → Bool) : (a.liveWith p).Nodup :=
  a.nodup_live.filter _

theorem mem_liveWith : k ∈ a.liveWith p ↔ (a.get? k).any p = true := by
  rw [liveWith, List.mem_filter, mem_live, contains]
  cases a.get? k <;> simp

def countP (a : Arena e α) (p : α → Bool) : Nat := (a.liveWith p).length

theorem count_eq_countP (a : Arena e α) : a.count = a.countP fun _ => true := by
  rw [count, countP, liveWith, List.filter_eq_self.2]
  intro k hk
  obtain ⟨x, hx⟩ := Option.isSome_iff_exists.1 (mem_live.1 hk)
  rw [hx, Option.any_some]

/-- A list of the handles in question has as many members as there are entries. -/
theorem length_eq_countP {ks : List (Handle e)} (hks : ks.Nodup)
    (h : ∀ k, k ∈ ks ↔ (a.get? k).any p = true) : ks.length = a.countP p :=
  ((List.perm_ext_iff_of_nodup hks (a.nodup_liveWith p)).2 fun k =>
    (h k).trans mem_liveWith.symm).length_eq

theorem countP_congr (h : ∀ k, (a.get? k).any p = (b.get? k).any q) : a.countP p = b.countP q :=
  length_eq_countP (a.nodup_liveWith p) fun k => by rw [mem_liveWith, h]

theorem countP_le (h : ∀ k, (a.get? k).any p = true → (b.get? k).any q = true) :
    a.countP p ≤ b.countP q :=
  ((a.nodup_liveWith p).subperm fun k hk => mem_liveWith.2 (h k (mem_liveWith.1 hk))).length_le

theorem countP_erase {x : α} (hk : a.get? k = some x) (hx : p x = true) :
    (a.erase k).countP p + 1 = a.countP p := by
  have hks : (k :: (a.erase k).liveWith p).Nodup :=
    List.nodup_cons.2 ⟨by simp [mem_liveWith], nodup_liveWith _ p⟩
  refine length_eq_countP hks fun j => ?_
  rw [List.mem_cons, mem_liveWith, get?_erase]
  by_cases hj : j = k
  · simp [hj, hk, hx]
  · simp [hj]

theorem countP_push {x : α} (a : Arena e α) (hx : p x = true) :
    (a.push x).countP p = a.countP p + 1 := by
  have hks : (a.next :: a.liveWith p).Nodup :=
    List.nodup_cons.2 ⟨by simp [mem_liveWith], a.nodup_liveWith p⟩
  refine (length_eq_countP hks fun j => ?_).symm
  rw [List.mem_cons, mem_liveWith, get?_push]
  by_cases hj : j = a.next
  · simp [hj, hx]
  · simp [hj]

theorem count_erase {x : α} (hk : a.get? k = some x) : (a.erase k).count + 1 = a.count := by
  rw [count_eq_countP, count_eq_countP]
  exact countP_erase hk rfl

theorem count_push (a : Arena e α) (x : α) : (a.push x).count = a.count + 1 := by
  rw [count_eq_countP, count_eq_countP]
  exact countP_push a rfl

theorem count_congr (h : ∀ k, a.contains k = b.contains k) : a.count = b.count := by
  rw [count_eq_countP, count_eq_countP]
  refine countP_congr fun k => ?_
  have hk := h k
  unfold contains at hk
  revert hk
  cases a.get? k <;> cases b.get? k <;> simp

end Midend.Arena
