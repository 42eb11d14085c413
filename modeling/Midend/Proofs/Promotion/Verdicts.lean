import Midend.Proofs.Promotion.Bystander
import Midend.Proofs.Promotion.Captures
import Midend.Proofs.Promotion.WellFormed

namespace Midend

open Cell

theorem count_eq_of_getElem? {α : Type} [DecidableEq α] {a : α} {xs ys : List α}
    (h : ∀ n : Nat, xs[n]? = some a ↔ ys[n]? = some a) : xs.count a = ys.count a := by
  have hnone : ∀ {zs : List α}, (∀ n : Nat, zs[n]? ≠ some a) → zs.count a = 0 := fun hz =>
    List.count_eq_zero.2 fun hmem => (List.mem_iff_getElem?.1 hmem).elim hz
  induction xs generalizing ys with
  | nil => exact (hnone fun n => by simp [← h n]).symm
  | cons x xs ih =>
    cases ys with
    | nil => exact hnone fun n => by simp [h n]
    | cons y ys =>
      have hhead : x = a ↔ y = a := by simpa using h 0
      have htail := ih fun n => by simpa using h (n + 1)
      simp only [List.count_cons, htail, beq_iff_eq, hhead]

namespace Verdict

variable {α β : Type}

/-- What the one rejects the other rejects, for the same reason. -/
def Follows (x y : Verdict α) : Prop := ∀ why, x.run = .ok (.error why) → y.run = .ok (.error why)

theorem Follows.refl (x : Verdict α) : Follows x x := fun _ => id

theorem follows_pure (a : α) (y : Verdict α) : Follows (pure a) y := fun _ h => by cases h

theorem Follows.bind {x : Verdict α} {k l : α → Verdict β}
    (h : ∀ a, Accepts x a → Follows (k a) (l a)) : Follows (x >>= k) (x >>= l) := by
  intro why hwhy
  rw [ExceptT.run_bind] at hwhy ⊢
  obtain ⟨r, hr, hrest⟩ := bind_eq_ok.1 hwhy
  rw [hr]
  cases r with
  | error why' => exact hrest
  | ok a => exact h a hr why hrest

theorem read_bind {x : Except Error α} {a : α} (hx : x = .ok a) (k : α → Verdict β) :
    (liftM x : Verdict α) >>= k = k a := by
  subst hx
  rfl

end Verdict

variable {f g : Func} {d : Dominance} {cell : Cell} {joins : Joins} {a : ValueId} {i : InstId}

namespace Func.KeepsUses

theorem held_eq (hk : f.KeepsUses a g) (u : User) : g.held a u = f.held a u := by
  cases u with
  | phi p => exact hk.phi p
  | inst i =>
    rw [held_inst, held_inst]
    cases hi' : g.insts.get? i with
    | some inst' =>
      obtain ⟨inst, hi, -, hslots⟩ := hk.inst i inst' hi'
      rw [hi]
      exact count_eq_of_getElem? hslots
    | none =>
      cases hi : f.insts.get? i with
      | none => rfl
      | some inst =>
        refine (List.count_eq_zero.2 fun hmem => ?_).symm
        have hlive := hk.kept i inst hi (.inl hmem)
        simp [Arena.contains, hi'] at hlive

theorem users_eq (hk : f.KeepsUses a g) (hf : f.Sound) (hg : g.Sound) {val val' : Value}
    (hv : f.values.get? a = some val) (hv' : g.values.get? a = some val') :
    val'.users = val.users := by
  refine OrderedMap.toList_eq_of_get? fun u => Option.ext fun n => ?_
  rw [OrderedMap.get?_eq_some_iff, OrderedMap.get?_eq_some_iff]
  have hmem := Value.mem_users_iff (hf.uses.counted a val hv) (u := u) (n := n)
  have hmem' := Value.mem_users_iff (hg.uses.counted a val' hv') (u := u) (n := n)
  rw [hf.uses.uses a val u hv] at hmem
  rw [hg.uses.uses a val' u hv', hk.held_eq] at hmem'
  exact hmem'.trans hmem.symm

theorem cellUse_eq (hk : f.KeepsUses a g) {u : User} (hu : 0 < g.held a u) :
    g.cellUse d a u = f.cellUse d a u := by
  cases u with
  | phi p => rfl
  | inst i =>
    cases hi' : g.insts.get? i with
    | none => simp [held_inst, hi'] at hu
    | some inst' =>
      obtain ⟨inst, hi, hshape, hslots⟩ := hk.inst i inst' hi'
      obtain ⟨hop, -, -, hblock⟩ := Inst.mk.inj hshape
      have hfirst := hslots 0
      have hsecond := hslots 1
      unfold cellUse
      dsimp only
      rw [Verdict.read_bind (inst_eq_ok.2 hi'), Verdict.read_bind (inst_eq_ok.2 hi), hop, hblock]
      generalize inst'.operands = xs at hfirst hsecond
      generalize inst.operands = ys at hfirst hsecond
      -- All that matters is whether the first operand is the value, and whether the second one is.
      cases inst.opcode with
      | getRef =>
        cases xs <;> cases ys <;> simp_all
      | setRef =>
        cases xs <;> cases ys <;> simp_all [List.head?_eq_getElem?]
      | closure proto => rfl
      | _ => rfl

end Func.KeepsUses

namespace Stage

variable (hf : f.Sound) (hs : Stage f cell joins g)
include hf hs

theorem before_iff {b : BlockId} {j : InstId} {x x' y y' : Inst} {k k' l l' : Nat}
    (hi : (f.instsOf b)[k]? = some (i, x)) (hj : (f.instsOf b)[l]? = some (j, y))
    (hi' : (g.instsOf b)[k']? = some (i, x')) (hj' : (g.instsOf b)[l']? = some (j, y')) :
    k' < l' ↔ k < l := by
  obtain ⟨data', hb', hk', -⟩ := hs.sound.linked.getElem?_instsOf.1 hi'
  obtain ⟨data, hb, hinsts⟩ := hs.exists_block hb'
  have hold : ∀ {n : Nat} {i : InstId} {x : Inst}, (f.instsOf b)[n]? = some (i, x) →
      data.insts[n]? = some i := by
    intro n i x he
    obtain ⟨data₀, hb₀, hn, -⟩ := hf.linked.getElem?_instsOf.1 he
    rwa [Option.some.inj (hb.symm.trans hb₀)]
  have hnew : ∀ {n : Nat} {i : InstId} {x : Inst}, (g.instsOf b)[n]? = some (i, x) →
      (data.insts.filter g.insts.contains)[n]? = some i := by
    intro n i x he
    obtain ⟨data₀, hb₀, hn, -⟩ := hs.sound.linked.getElem?_instsOf.1 he
    rwa [← hinsts, Option.some.inj (hb'.symm.trans hb₀)]
  have hnodup := hf.linked.insts_nodup b data hb
  refine ⟨fun hlt => ?_, fun hlt =>
    lt_of_filter hnodup (hold hi) (hold hj) hlt (hnew hi') (hnew hj')⟩
  by_contra hge
  rcases Nat.lt_or_eq_of_le (Nat.le_of_not_lt hge) with hlt' | heq
  · exact absurd (lt_of_filter hnodup (hold hj) (hold hi) hlt' (hnew hj') (hnew hi'))
      (Nat.lt_asymm hlt)
  · subst heq
    have hij : i = j := congrArg Prod.fst (Option.some.inj (hi.symm.trans hj))
    subst hij
    have hlen : k' < (data.insts.filter g.insts.contains).length :=
      (List.getElem?_eq_some_iff.1 (hnew hi')).1
    have hsame := (List.getElem?_inj hlen (hnodup.filter _)).1 ((hnew hi').trans (hnew hj').symm)
    omega

/-- Whether captures are final depends on blocks and order only. -/
theorem capturesAreFinal_eq {uses : List CellUse}
    (hu : ∀ u ∈ uses, g.insts.contains u.inst = true) :
    g.capturesAreFinal d uses = f.capturesAreFinal d uses := by
  have hplace : ∀ u ∈ uses, ∃ (b : BlockId) (k k' : Nat) (x x' : Inst),
      (f.instsOf b)[k]? = some (u.inst, x) ∧ (g.instsOf b)[k']? = some (u.inst, x') := by
    intro u hmem
    obtain ⟨x', hi'⟩ := Option.isSome_iff_exists.1 (hu u hmem)
    obtain ⟨x, hi, hshape, -⟩ := hs.inst _ x' hi'
    obtain ⟨-, -, -, hblock⟩ := Inst.mk.inj hshape
    obtain ⟨k, hk⟩ := hf.linked.exists_getElem?_instsOf hi
    obtain ⟨k', hk'⟩ := hs.sound.linked.exists_getElem?_instsOf hi'
    exact ⟨x.block, k, k', x, x', hk, hblock ▸ hk'⟩
  choose! b k k' x x' hold hnew using hplace
  have hlocated : uses.mapM (fun u => do return (u, ← f.locate u.inst)) =
      .ok (uses.map fun u => (u, b u, k u)) :=
    mapM_ok fun u hmem => bind_eq_ok.2 ⟨_, hf.linked.locate_eq (hold u hmem), rfl⟩
  have hlocated' : uses.mapM (fun u => do return (u, ← g.locate u.inst)) =
      .ok (uses.map fun u => (u, b u, k' u)) :=
    mapM_ok fun u hmem => bind_eq_ok.2 ⟨_, hs.sound.linked.locate_eq (hnew u hmem), rfl⟩
  unfold Func.capturesAreFinal
  rw [hlocated, hlocated']
  refine congrArg Except.ok (Bool.eq_iff_iff.2 ?_)
  simp only [List.all_map, List.all_eq_true, Bool.or_eq_true, Function.comp_apply]
  refine forall₂_congr fun c hc => or_congr_right (forall₂_congr fun u hu => or_congr_right ?_)
  -- Between blocks nothing has changed; within one, places have but their order has not.
  by_cases hblock : b u = b c
  · have hc' := hnew c hc
    have hcold := hold c hc
    rw [← hblock] at hc' hcold
    have horder := hs.before_iff hf hcold (hold u hu) hc' (hnew u hu)
    simp only [horder]
  · simp [hblock]

/-- A cell that is rejected is rejected again. -/
theorem promotable_follows (hk : f.KeepsUses a g) {captured : Bool} {inst inst' : Inst}
    (hi : f.insts.get? i = some inst) (hi' : g.insts.get? i = some inst')
    (hnew : inst.opcode = .newRef) (hres : inst.result = some a) (hargs : inst.operands ≠ [])
    (hargs' : inst'.operands ≠ []) :
    Verdict.Follows (f.promotable captured d i) (g.promotable captured d i) := by
  obtain ⟨inst₀, hi₀, hshape, -⟩ := hk.inst i inst' hi'
  obtain rfl := Option.some.inj (hi.symm.trans hi₀)
  obtain ⟨hop, -, hres', hblock⟩ := Inst.mk.inj hshape
  obtain ⟨v, vs, hv⟩ := List.exists_cons_of_ne_nil hargs
  obtain ⟨w, ws, hw⟩ := List.exists_cons_of_ne_nil hargs'
  obtain ⟨val, hval, -⟩ := hf.linked.inst_result i inst a hi hres
  obtain ⟨val', hval', -⟩ := hs.sound.linked.inst_result i inst' a hi' (hres'.trans hres)
  have husers := hk.users_eq hf hs.sound hval hval'
  have hheld : ∀ u ∈ val.users, 0 < g.held a u.1 := by
    intro u hu
    rw [← husers] at hu
    obtain ⟨hcount, hpos⟩ := (Value.mem_users_iff (hs.sound.uses.counted a val' hval')).1 hu
    rwa [← hs.sound.uses.uses a val' _ hval', hcount]
  unfold Func.promotable
  rw [Verdict.read_bind (Func.inst_eq_ok.2 hi), Verdict.read_bind (Func.inst_eq_ok.2 hi'), hop,
    hres', hblock, hres, hv, hw, hnew]
  dsimp only
  rw [Verdict.read_bind (Func.value_eq_ok.2 hval), Verdict.read_bind (Func.value_eq_ok.2 hval'),
    husers, mapM_congr fun u hu => hk.cellUse_eq (hheld u hu)]
  split
  · refine .bind fun uses huses => ?_
    have hlive : ∀ u ∈ uses, g.insts.contains u.inst = true := by
      intro u hu
      obtain ⟨e, he, haccepts⟩ := exists_of_forall₂ (Verdict.accepts_mapM huses).flip hu
      obtain ⟨-, hinst, -⟩ := Func.cellUse_accepts haccepts
      have hpos := hheld e he
      rw [hinst, Func.held_inst] at hpos
      cases hlive : g.insts.get? u.inst with
      | none => simp [hlive] at hpos
      | some x => exact Option.isSome_iff_exists.2 ⟨x, hlive⟩
    rw [hs.capturesAreFinal_eq hf hlive]
    split
    · split
      · refine .bind fun final _ => ?_
        split
        · exact Verdict.follows_pure _ _
        · exact .refl _
      · exact .refl _
    · exact Verdict.follows_pure _ _
  · exact .refl _

end Stage

end Midend
