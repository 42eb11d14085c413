import Mathlib.Data.List.Forall2
import Mathlib.Tactic.Common

namespace Midend

variable {ε α β γ : Type}

theorem bind_eq_ok {x : Except ε α} {k : α → Except ε β} {b : β} :
    x >>= k = .ok b ↔ ∃ a, x = .ok a ∧ k a = .ok b := by
  cases x with
  | error e => simp [bind, Except.bind]
  | ok a => simp [bind, Except.bind]

theorem pure_eq_ok {a b : α} : (pure a : Except ε α) = .ok b ↔ a = b := by
  simp [pure, Except.pure]

theorem discard_eq_ok {x : Except ε α} {u : Unit} : discard x = .ok u ↔ ∃ a, x = .ok a := by
  cases x <;> simp [discard, Functor.discard, Functor.mapConst, Except.map]

theorem isOk_iff {x : Except ε α} : x.isOk = true ↔ ∃ a, x = .ok a := by
  cases x <;> simp [Except.isOk, Except.toBool]

theorem forM_eq_ok {as : List α} {u : α → Except ε Unit} {r : Unit} :
    as.forM u = .ok r ↔ ∀ a ∈ as, u a = .ok () := by
  induction as with
  | nil => simp [pure, Except.pure]
  | cons a as ih =>
    have hcons : (a :: as).forM u = u a >>= fun _ => as.forM u := rfl
    rw [hcons, bind_eq_ok]
    simp only [List.mem_cons, forall_eq_or_imp]
    constructor
    · rintro ⟨_, ha, hrest⟩
      exact ⟨ha, ih.1 hrest⟩
    · rintro ⟨ha, hrest⟩
      exact ⟨(), ha, ih.2 hrest⟩

theorem exists_of_forall₂ {R : α → β → Prop} {as : List α} {bs : List β} (h : List.Forall₂ R as bs)
    {a : α} (ha : a ∈ as) : ∃ b ∈ bs, R a b := by
  induction h with
  | nil => simp at ha
  | cons hr _ ih =>
    rcases List.mem_cons.1 ha with rfl | ha
    · exact ⟨_, List.mem_cons_self, hr⟩
    · obtain ⟨b, hb, hr⟩ := ih ha
      exact ⟨b, List.mem_cons_of_mem _ hb, hr⟩

theorem mapM_congr {m : Type → Type} [Monad m] [LawfulMonad m] {as : List α} {u v : α → m β}
    (h : ∀ a ∈ as, u a = v a) : as.mapM u = as.mapM v := by
  induction as with
  | nil => rfl
  | cons a as ih =>
    obtain ⟨ha, has⟩ := List.forall_mem_cons.1 h
    rw [List.mapM_cons, List.mapM_cons, ha, ih has]

theorem mapM_ok {as : List α} {u : α → Except ε β} {w : α → β} (h : ∀ a ∈ as, u a = .ok (w a)) :
    as.mapM u = .ok (as.map w) := by
  induction as with
  | nil => rfl
  | cons a as ih =>
    obtain ⟨ha, has⟩ := List.forall_mem_cons.1 h
    rw [List.mapM_cons, ha, ih has]
    rfl

theorem filterMapM_loop_ok {as : List α} {u : α → Except ε (Option β)} {w : α → Option β}
    (h : ∀ a ∈ as, u a = .ok (w a)) (bs : List β) :
    List.filterMapM.loop u as bs = .ok (bs.reverse ++ as.filterMap w) := by
  induction as generalizing bs with
  | nil => simp [List.filterMapM.loop, pure, Except.pure]
  | cons a as ih =>
    obtain ⟨ha, has⟩ := List.forall_mem_cons.1 h
    rw [List.filterMapM.loop, ha]
    cases hw : w a with
    | none => simpa [bind, Except.bind, hw] using ih has bs
    | some b => simpa [bind, Except.bind, hw] using ih has (b :: bs)

theorem filterMapM_ok {as : List α} {u : α → Except ε (Option β)} {w : α → Option β}
    (h : ∀ a ∈ as, u a = .ok (w a)) : as.filterMapM u = .ok (as.filterMap w) :=
  filterMapM_loop_ok h []

theorem filterAuxM_ok {as : List α} {u : α → Except ε Bool} {w : α → Bool}
    (h : ∀ a ∈ as, u a = .ok (w a)) (bs : List α) :
    List.filterAuxM u as bs = .ok ((as.filter w).reverse ++ bs) := by
  induction as generalizing bs with
  | nil => rfl
  | cons a as ih =>
    obtain ⟨ha, has⟩ := List.forall_mem_cons.1 h
    rw [List.filterAuxM, ha]
    cases hw : w a <;> simp [bind, Except.bind, hw, ih has]

theorem filterM_ok {as : List α} {u : α → Except ε Bool} {w : α → Bool}
    (h : ∀ a ∈ as, u a = .ok (w a)) : as.filterM u = .ok (as.filter w) := by
  rw [List.filterM, filterAuxM_ok h []]
  simp [bind, Except.bind, pure, Except.pure]

end Midend
