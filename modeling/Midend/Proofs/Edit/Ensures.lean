import Midend.Proofs.Edit.SlotsLive

namespace Midend

namespace Func

variable {h g : Func}

theorem Replaced.held_eq {old new : ValueId} (hr : Replaced old new h g) (hne : old ≠ new)
    (v : ValueId) (u : User) :
    g.held v u = if v = old then 0 else h.held v u + if v = new then h.held old u else 0 := by
  cases u with
  | inst i =>
    rw [held_inst, held_inst, held_inst, hr.insts, Option.map_map]
    cases h.insts.get? i with
    | none => simp
    | some inst => exact count_map_swap hne inst.operands v
  | phi p =>
    rw [held_phi, held_phi, held_phi, hr.phis, Option.map_map]
    cases h.phis.get? p with
    | none => simp
    | some phi =>
      simp only [Option.map_some, Function.comp_apply, Phi.holds, Phi.replace,
        OrderedMap.values_mapValues, Option.getD_some]
      exact count_map_swap hne phi.sources.values v

theorem Replaced.held_of_ne {old new v : ValueId} (hr : Replaced old new h g) (hold : v ≠ old)
    (hnew : v ≠ new) (u : User) : g.held v u = h.held v u := by
  by_cases hne : old = new
  · subst hne
    cases u with
    | inst i => rw [held_inst, hr.insts, inst_replace_self, Option.map_id_fun, id, held_inst]
    | phi p => rw [held_phi, hr.phis, phi_replace_self, Option.map_id_fun, id, held_phi]
  · rw [hr.held_eq hne, if_neg hold, if_neg hnew, Nat.add_zero]

theorem Replaced.held_old {old new : ValueId} (hr : Replaced old new h g) (hne : old ≠ new)
    (u : User) : g.held old u = 0 := by
  rw [hr.held_eq hne, if_pos rfl]

end Func

/-- In a loop over distinct members the next one is not among those done. -/
theorem notMem_done {α : Type} {as done rest : List α} {a : α} (h : as.Nodup)
    (hsplit : as = done ++ a :: rest) : a ∉ done := by
  rw [hsplit, List.nodup_append] at h
  exact fun hin => h.2.2 a hin a List.mem_cons_self rfl

namespace Edit

variable {α β γ : Type} {f : Func} {Q : α → Func → Prop}

/-- The edit succeeds with `Q`. -/
def Ensures (e : Edit α) (f : Func) (Q : α → Func → Prop) : Prop :=
  ∃ a g, e.apply f = (.ok a, g) ∧ Q a g

theorem Yields.ensures {e : Edit α} (h : e.Yields f Q) (hok : e.Ensures f fun _ _ => True) :
    e.Ensures f Q := by
  obtain ⟨a, g, hrun, -⟩ := hok
  exact ⟨a, g, hrun, h.of_ok hrun⟩

namespace Ensures

theorem imp {R : α → Func → Prop} {e : Edit α} (h : e.Ensures f Q) (hi : ∀ a g, Q a g → R a g) :
    e.Ensures f R := by
  obtain ⟨a, g, hrun, hq⟩ := h
  exact ⟨a, g, hrun, hi a g hq⟩

theorem of_ok {e : Edit α} {a : α} {g : Func} (h : e.Ensures f Q) (he : e.apply f = (.ok a, g)) :
    Q a g := by
  obtain ⟨a', g', hrun, hq⟩ := h
  obtain ⟨ha, rfl⟩ := Prod.mk.inj (he.symm.trans hrun)
  obtain rfl := Except.ok.inj ha
  exact hq

theorem pure {a : α} (h : Q a f) : (pure a : Edit α).Ensures f Q := ⟨a, f, rfl, h⟩

theorem modify {u : Func → Func} {Q : PUnit → Func → Prop} (h : Q ⟨⟩ (u f)) :
    (modify u : Edit PUnit).Ensures f Q := ⟨⟨⟩, u f, rfl, h⟩

theorem bind {R : β → Func → Prop} {e : Edit β} {k : β → Edit α} (he : e.Ensures f R)
    (hk : ∀ b g, R b g → (k b).Ensures g Q) : (e >>= k).Ensures f Q := by
  obtain ⟨b, g, hrun, hr⟩ := he
  obtain ⟨a, g', hrun', hq⟩ := hk b g hr
  exact ⟨a, g', by rw [apply_bind, hrun]; exact hrun', hq⟩

theorem query_bind {q : Func → Except Error β} {k : β → Edit α} {b : β} (hb : q f = .ok b)
    (h : (k b).Ensures f Q) : (query q >>= k).Ensures f Q := by
  refine bind (R := fun b' g => b' = b ∧ g = f) ⟨b, f, by rw [apply_query, hb], rfl, rfl⟩ ?_
  rintro _ _ ⟨rfl, rfl⟩
  exact h

theorem map {u : β → α} {e : Edit β} (h : e.Ensures f fun b g => Q (u b) g) :
    (u <$> e).Ensures f Q := by
  obtain ⟨b, g, hrun, hq⟩ := h
  exact ⟨u b, g, by rw [apply_map, hrun]; rfl, hq⟩

theorem discard {Q : Func → Prop} {e : Edit β} (h : e.Ensures f fun _ g => Q g) :
    (discard e).Ensures f fun _ g => Q g := map h

/-- A loop with an invariant over the members done. -/
theorem forM {I : List β → Func → Prop} {u : β → Edit Unit} (as : List β)
    (hstep : ∀ done a rest, as = done ++ a :: rest → ∀ g, I done g →
      (u a).Ensures g fun _ g' => I (done ++ [a]) g')
    (hf : I [] f) : (as.forM u).Ensures f fun _ g => I as g := by
  suffices hgo : ∀ rest done g, as = done ++ rest → I done g →
      (rest.forM u).Ensures g fun _ g' => I as g' from hgo as [] f rfl hf
  intro rest
  induction rest with
  | nil =>
    intro done g heq hg
    rw [List.append_nil] at heq
    exact pure (heq ▸ hg)
  | cons a rest ih =>
    intro done g heq hg
    refine bind (hstep done a rest heq g hg) fun _ g' hg' => ?_
    exact ih (done ++ [a]) g' (by rw [heq, List.append_assoc]; rfl) hg'

theorem foldlM {I : List β → α → Func → Prop} {u : α → β → Edit α} {a : α} (as : List β)
    (hstep : ∀ done b rest, as = done ++ b :: rest → ∀ a g, I done a g →
      (u a b).Ensures g fun a' g' => I (done ++ [b]) a' g')
    (hf : I [] a f) : (as.foldlM u a).Ensures f fun a' g => I as a' g := by
  suffices hgo : ∀ rest done a g, as = done ++ rest → I done a g →
      (rest.foldlM u a).Ensures g fun a' g' => I as a' g' from hgo as [] a f rfl hf
  intro rest
  induction rest with
  | nil =>
    intro done a g heq hg
    rw [List.append_nil] at heq
    exact pure (heq ▸ hg)
  | cons b rest ih =>
    intro done a g heq hg
    rw [List.foldlM_cons]
    refine bind (hstep done b rest heq a g hg) fun a' g' hg' => ?_
    exact ih (done ++ [b]) a' g' (by rw [heq, List.append_assoc]; rfl) hg'

theorem mapM_query {q : β → Func → Except Error γ} {u : γ → α} {as : List β}
    (h : ∀ b ∈ as, ∃ c, q b f = .ok c) :
    (as.mapM fun b => do return u (← query (q b)) : Edit (List α)).Ensures f fun bs g =>
      List.Forall₂ (fun b a => ∃ c, q b f = .ok c ∧ u c = a) as bs ∧ g = f := by
  induction as with
  | nil => exact pure ⟨.nil, rfl⟩
  | cons b as ih =>
    obtain ⟨⟨c, hc⟩, has⟩ := List.forall_mem_cons.1 h
    rw [List.mapM_cons]
    refine bind (query_bind hc (pure (Q := fun a g => a = u c ∧ g = f) ⟨rfl, rfl⟩)) ?_
    rintro _ _ ⟨rfl, rfl⟩
    refine bind (ih has) ?_
    rintro bs _ ⟨hbs, rfl⟩
    exact pure ⟨.cons ⟨c, hc, rfl⟩ hbs, rfl⟩

end Ensures

theorem setPhiSource_ensures {p : PhiId} {pred : BlockId} {v : ValueId} {phi : Phi}
    (hv : f.values.contains v = true) (hb : f.hasBlock pred = true)
    (hp : f.phis.get? p = some phi) :
    (setPhiSource p pred v).Ensures f fun _ g =>
      g = f.withSource p (phi.source pred) pred v := by
  obtain ⟨val, hval⟩ := Option.isSome_iff_exists.1 hv
  obtain ⟨data, hdata⟩ := Func.hasBlock_iff.1 hb
  exact .query_bind (Func.value_eq_ok.2 hval) (.query_bind (Func.block_eq_ok.2 hdata)
    (.query_bind (Func.phi_eq_ok.2 hp) (.modify rfl)))

theorem removePhiSource_ensures {p : PhiId} {pred : BlockId} {phi : Phi}
    (hp : f.phis.get? p = some phi) :
    (removePhiSource p pred).Ensures f fun _ g =>
      g = f.withoutSource p (phi.source pred) pred :=
  .query_bind (Func.phi_eq_ok.2 hp) ⟨_, _, rfl, rfl⟩

theorem addPhi_ensures {b : BlockId} (hb : f.hasBlock b = true) :
    (addPhi b).Ensures f fun p g => p = f.phis.next ∧ g = f.withPhi b := by
  obtain ⟨data, hdata⟩ := Func.hasBlock_iff.1 hb
  exact .query_bind (Func.block_eq_ok.2 hdata) ⟨_, _, rfl, rfl, rfl⟩

theorem setOperand_ensures {i : InstId} {index : Nat} {v old : ValueId} {inst : Inst}
    (hv : f.values.contains v = true) (hi : f.insts.get? i = some inst)
    (hindex : inst.operands[index]? = some old) :
    (setOperand i index v).Ensures f fun _ g =>
      g = if old = v then f else f.withOperand i index old v := by
  obtain ⟨val, hval⟩ := Option.isSome_iff_exists.1 hv
  refine ((setOperand_yields f i index v).ensures ?_).imp ?_
  · refine .query_bind (Func.value_eq_ok.2 hval) (.query_bind (Func.inst_eq_ok.2 hi) ?_)
    rw [hindex]
    dsimp only
    split
    · exact .modify trivial
    · exact .pure trivial
  · rintro _ g ⟨-, inst', old', -, hi', hindex', rfl⟩
    obtain rfl := Option.some.inj (hi.symm.trans hi')
    obtain rfl := Option.some.inj (hindex.symm.trans hindex')
    rfl

theorem replaceAllUses_ensures (h : f.UsesAgree) {old new : ValueId}
    (hold : f.values.contains old = true) (hnew : f.values.contains new = true) :
    (replaceAllUses old new).Ensures f fun _ g => Func.Replaced old new f g := by
  obtain ⟨data, hdata⟩ := Option.isSome_iff_exists.1 hold
  obtain ⟨val, hval⟩ := Option.isSome_iff_exists.1 hnew
  exact replaceAllUses_apply h hval hdata

theorem removeInst_ensures (hf : f.Sound) {i : InstId} {data : Inst}
    (hi : f.insts.get? i = some data)
    (hunused : ∀ v u, data.result = some v → f.held v u = 0) :
    (removeInst i).Ensures f fun _ g => g.Sound ∧ f.WithoutInst i data g := by
  have hresult := fun v hv => hf.linked.inst_result i data v hi hv
  have hok : (removeInst i).Ensures f fun _ _ => True := by
    refine .query_bind (Func.inst_eq_ok.2 hi) ?_
    have hrest : ∀ u, (discardInst i >>= fun _ => modify u : Edit PUnit).Ensures f
        fun _ _ => True :=
      fun u => .bind (R := fun _ _ => True) ⟨_, _, discardInst_apply hi hresult, trivial⟩
        fun _ _ _ => .modify trivial
    cases hres : data.result with
    | none => exact hrest _
    | some v =>
      obtain ⟨val, hval, -⟩ := hresult v hres
      have hidle : val.isUnused = true :=
        (Value.isUnused_iff (hf.uses.counted v val hval)).2 fun u => by
          rw [hf.uses.uses v val u hval, hunused v u hres]
      refine .query_bind (Func.value_eq_ok.2 hval) ?_
      rw [hidle]
      exact hrest _
  obtain ⟨_, g, hrun, -⟩ := hok
  have hsound : g.Sound := by
    have := removeInst_sound hf i
    rwa [hrun] at this
  obtain ⟨data', hdata', -, hg⟩ := (removeInst_yields f i fun data v hi hv =>
    hf.linked.inst_result i data v hi hv).of_ok hrun
  obtain rfl := Option.some.inj (hi.symm.trans hdata')
  obtain ⟨k, hk⟩ : ∃ k, k = (f.unlistInst data.block i).dropInst i data := ⟨_, rfl⟩
  have hgk : g = k ∨ g = k.invalidateDominance ∧ data.isTerminator = true := by
    rw [hg, hk]
    split
    · exact .inr ⟨rfl, ‹_›⟩
    · exact .inl rfl
  have hkept : f.WithoutInst i data k := hk ▸ .of_drop hunused
  refine ⟨_, g, hrun, hsound, ?_⟩
  rcases hgk with rfl | ⟨rfl, hterm⟩
  · exact hkept
  · exact ⟨hkept.insts, hkept.phis, hkept.entry, hkept.arguments, hkept.limit, by simp [hterm],
      hkept.blocks, hkept.values, hkept.unused⟩

theorem removePhi_ensures (hf : f.Sound) {p : PhiId} {data : Phi}
    (hp : f.phis.get? p = some data) (hunused : ∀ u, u ≠ .phi p → f.held data.result u = 0) :
    (removePhi p).Ensures f fun _ g => g.Sound ∧ f.WithoutPhi p data g := by
  obtain ⟨val, hval, hdef⟩ := hf.linked.phi_result p data hp
  have hidle : ¬ (val.users.any fun u => u.1 != .phi p) = true := by
    rw [List.any_eq_true]
    rintro ⟨⟨u, n⟩, hu, hne⟩
    obtain ⟨hcount, hpos⟩ := (Value.mem_users_iff (hf.uses.counted _ val hval)).1 hu
    rw [hf.uses.uses _ val u hval, hunused u (by simpa using hne)] at hcount
    omega
  have hok : (removePhi p).Ensures f fun _ _ => True := by
    refine .query_bind (Func.phi_eq_ok.2 hp) (.query_bind (Func.value_eq_ok.2 hval) ?_)
    rw [if_neg hidle]
    exact .bind (R := fun _ _ => True) ⟨_, _, discardPhi_apply hp ⟨val, hval, hdef⟩, trivial⟩
      fun _ _ _ => .modify trivial
  obtain ⟨_, g, hrun, -⟩ := hok
  have hsound : g.Sound := by
    have := removePhi_sound hf p
    rwa [hrun] at this
  obtain ⟨data', _, hdata', -, -, rfl⟩ := (removePhi_yields f p fun data hp =>
    hf.linked.phi_result p data hp).of_ok hrun
  obtain rfl := Option.some.inj (hp.symm.trans hdata')
  exact ⟨_, _, hrun, hsound, .of_drop hunused⟩

end Edit

end Midend
