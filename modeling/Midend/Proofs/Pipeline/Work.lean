import Midend.Error
import Mathlib.Tactic.Common

namespace Midend

/-- A computation that ends in a result or an error, and in a state either way. -/
abbrev Work (S : Type) := ExceptT Error (StateM S)

namespace Work

variable {S α β : Type} {mayFail : Prop} {s : S} {Q : α → S → Prop}

def outcome (w : Work S α) (s : S) : Except Error α × S := StateT.run (ExceptT.run w) s

theorem outcome_bind (w : Work S α) (k : α → Work S β) (s : S) :
    outcome (w >>= k) s =
      match outcome w s with
      | (.ok a, t) => outcome (k a) t
      | (.error err, t) => (.error err, t) := by
  change (match w s with | (r, t) => ExceptT.bindCont k r t) = _
  unfold outcome StateT.run ExceptT.run
  rcases w s with ⟨_ | _, _⟩ <;> rfl

theorem outcome_tryCatch (w : Work S α) (h : Error → Work S α) (s : S) :
    outcome (tryCatch w h) s =
      match outcome w s with
      | (.ok a, t) => (.ok a, t)
      | (.error err, t) => outcome (h err) t := by
  simp only [outcome, tryCatch, tryCatchThe, MonadExceptOf.tryCatch, ExceptT.tryCatch,
    ExceptT.run_mk, StateT.run_bind]
  unfold ExceptT.run
  rcases StateT.run w s with ⟨_ | _, _⟩ <;> rfl

/-- From `s` the work comes to a result and a state with `Q`; if it may fail, it need not. -/
def Ends (mayFail : Prop) (w : Work S α) (s : S) (Q : α → S → Prop) : Prop :=
  match outcome w s with
  | (.ok a, t) => Q a t
  | (.error _, _) => mayFail

theorem ends_false {w : Work S α} :
    Ends False w s Q ↔ ∃ a t, outcome w s = (.ok a, t) ∧ Q a t := by
  unfold Ends
  rcases outcome w s with ⟨_ | a, t⟩
  · simp
  · simp

theorem ends_true {w : Work S α} :
    Ends True w s Q ↔ ∀ a t, outcome w s = (.ok a, t) → Q a t := by
  unfold Ends
  rcases outcome w s with ⟨_ | a, t⟩
  · simp
  · simp

namespace Ends

theorem trivial (w : Work S α) (s : S) : Ends True w s fun _ _ => True :=
  ends_true.2 fun _ _ _ => True.intro

theorem imp {R : α → S → Prop} {w : Work S α} (h : Ends mayFail w s Q)
    (hi : ∀ a t, Q a t → R a t) : Ends mayFail w s R := by
  unfold Ends at h ⊢
  revert h
  rcases outcome w s with ⟨_ | a, t⟩
  · exact id
  · exact hi a t

theorem and {R : α → S → Prop} {w : Work S α} (h : Ends mayFail w s Q) (hr : Ends True w s R) :
    Ends mayFail w s fun a t => Q a t ∧ R a t := by
  unfold Ends at h hr ⊢
  revert h hr
  rcases outcome w s with ⟨_ | a, t⟩
  · exact fun h _ => h
  · exact And.intro

theorem pure {a : α} (h : Q a s) : Ends mayFail (pure a : Work S α) s Q := h

theorem throw (err : Error) (h : mayFail) : Ends mayFail (throw err : Work S α) s Q := h

theorem modify {u : S → S} {Q : PUnit → S → Prop} (h : Q ⟨⟩ (u s)) :
    Ends mayFail (modify u : Work S PUnit) s Q := h

theorem bind {R : β → S → Prop} {w : Work S β} {k : β → Work S α} (hw : Ends mayFail w s R)
    (hk : ∀ b t, R b t → Ends mayFail (k b) t Q) : Ends mayFail (w >>= k) s Q := by
  unfold Ends at hw ⊢
  rw [outcome_bind]
  revert hw
  rcases outcome w s with ⟨_ | b, t⟩
  · exact id
  · exact hk b t

theorem map {u : β → α} {w : Work S β} (h : Ends mayFail w s fun b t => Q (u b) t) :
    Ends mayFail (u <$> w) s Q := by
  rw [← bind_pure_comp]
  exact bind h fun _ _ ht => pure ht

theorem discard {Q : S → Prop} {w : Work S β} (h : Ends mayFail w s fun _ t => Q t) :
    Ends mayFail (discard w) s fun _ t => Q t := map h

theorem get_bind {k : S → Work S α} (h : Ends mayFail (k s) s Q) :
    Ends mayFail (get >>= k) s Q := h

theorem tryCatch {w : Work S α} {k : Error → Work S α} (hw : Ends mayFail w s Q)
    (hk : mayFail → ∀ err t, Ends mayFail (k err) t Q) : Ends mayFail (tryCatch w k) s Q := by
  unfold Ends at hw ⊢
  rw [outcome_tryCatch]
  revert hw
  rcases outcome w s with ⟨err | a, t⟩
  · exact fun hfail => hk hfail err t
  · exact id

theorem foldlM {I : List β → α → S → Prop} {u : α → β → Work S α} {a : α} (bs : List β)
    (hstep : ∀ done b rest, bs = done ++ b :: rest → ∀ a t, I done a t →
      Ends mayFail (u a b) t fun a' t' => I (done ++ [b]) a' t')
    (h : I [] a s) : Ends mayFail (bs.foldlM u a) s fun a' t => I bs a' t := by
  suffices hgo : ∀ rest done a t, bs = done ++ rest → I done a t →
      Ends mayFail (rest.foldlM u a) t fun a' t' => I bs a' t' from hgo bs [] a s rfl h
  intro rest
  induction rest with
  | nil =>
    intro done a t heq ht
    rw [List.append_nil] at heq
    exact pure (heq ▸ ht)
  | cons b rest ih =>
    intro done a t heq ht
    rw [List.foldlM_cons]
    refine bind (hstep done b rest heq a t ht) fun a' t' ht' => ?_
    exact ih (done ++ [b]) a' t' (by rw [heq, List.append_assoc]; rfl) ht'

theorem forM {I : List β → S → Prop} {u : β → Work S Unit} (bs : List β)
    (hstep : ∀ done b rest, bs = done ++ b :: rest → ∀ t, I done t →
      Ends mayFail (u b) t fun _ t' => I (done ++ [b]) t')
    (h : I [] s) : Ends mayFail (bs.forM u) s fun _ t => I bs t := by
  suffices hgo : ∀ rest done t, bs = done ++ rest → I done t →
      Ends mayFail (rest.forM u) t fun _ t' => I bs t' from hgo bs [] s rfl h
  intro rest
  induction rest with
  | nil =>
    intro done t heq ht
    rw [List.append_nil] at heq
    exact pure (heq ▸ ht)
  | cons b rest ih =>
    intro done t heq ht
    refine bind (hstep done b rest heq t ht) fun _ t' ht' => ?_
    exact ih (done ++ [b]) t' (by rw [heq, List.append_assoc]; rfl) ht'

theorem mapM_cons {R : α → S → Prop} {Q : List α → S → Prop} {u : β → Work S α} {b : β}
    {bs : List β} (hb : Ends mayFail (u b) s R)
    (hbs : ∀ a t, R a t → Ends mayFail (bs.mapM u) t fun as t' => Q (a :: as) t') :
    Ends mayFail ((b :: bs).mapM u) s Q := by
  rw [List.mapM_cons]
  exact bind hb fun a t ht => bind (hbs a t ht) fun _ _ ht' => pure ht'

theorem mapM {I : S → Prop} {u : β → Work S α} {bs : List β}
    (hstep : ∀ b ∈ bs, ∀ t, I t → Ends mayFail (u b) t fun _ t' => I t') (h : I s) :
    Ends mayFail (bs.mapM u) s fun _ t => I t := by
  induction bs generalizing s with
  | nil => exact pure h
  | cons b bs ih =>
    obtain ⟨hb, hbs⟩ := List.forall_mem_cons.1 hstep
    exact mapM_cons (hb s h) fun _ _ ht => ih hbs ht

theorem filterM {I : List β → List β → S → Prop} {u : β → Work S Bool} (bs : List β)
    (hstep : ∀ done b rest, bs = done ++ b :: rest → ∀ kept t, I done kept t →
      Ends mayFail (u b) t fun keep t' =>
        I (done ++ [b]) (if keep = true then kept ++ [b] else kept) t')
    (h : I [] [] s) : Ends mayFail (bs.filterM u) s fun kept t => I bs kept t := by
  suffices hgo : ∀ rest done kept t, bs = done ++ rest → I done kept t →
      Ends mayFail (List.filterAuxM u rest kept.reverse) t fun acc t' => I bs acc.reverse t' by
    exact bind (hgo bs [] [] s rfl h) fun acc t ht => pure ht
  intro rest
  induction rest with
  | nil =>
    intro done kept t heq ht
    rw [List.append_nil] at heq
    refine pure ?_
    rw [List.reverse_reverse]
    exact heq ▸ ht
  | cons b rest ih =>
    intro done kept t heq ht
    refine bind (hstep done b rest heq kept t ht) fun keep t' ht' => ?_
    have hrest := ih (done ++ [b]) _ t' (by rw [heq, List.append_assoc]; rfl) ht'
    cases keep with
    | false => exact hrest
    | true => simpa using hrest

end Ends

end Work

end Midend
