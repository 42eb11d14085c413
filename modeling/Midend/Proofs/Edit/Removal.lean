import Midend.Proofs.Edit.Sound

namespace Midend

def Block.Lists (data : Block) : User → Prop
  | .inst i => i ∈ data.insts
  | .phi p => p ∈ data.phis

namespace Edit

open Func

variable {f g : Func} {loose : User → Prop}

theorem apply_forM_cons {α : Type} {u : α → Edit Unit} {a : α} {as : List α} {g : Func}
    (h : (u a).apply f = (.ok (), g)) : ((a :: as).forM u).apply f = (as.forM u).apply g := by
  have hcons : (a :: as).forM u = u a >>= fun _ => as.forM u := rfl
  rw [hcons, apply_bind, h]

theorem forM_ok {α : Type} {u : α → Edit Unit} {P : Func → Prop} {as : List α}
    (hstep : ∀ a ∈ as, ∀ f, P f → ∃ g, (u a).apply f = (.ok (), g) ∧ P g) (hf : P f) :
    ∃ g, (as.forM u).apply f = (.ok (), g) ∧ P g := by
  induction as generalizing f with
  | nil => exact ⟨f, rfl, hf⟩
  | cons a as ih =>
    obtain ⟨g, hg, hpg⟩ := hstep a List.mem_cons_self f hf
    obtain ⟨k, hk, hpk⟩ := ih (fun b hb => hstep b (List.mem_cons_of_mem _ hb)) hpg
    exact ⟨k, (apply_forM_cons hg).trans hk, hpk⟩

theorem dropPhi_contains {p : PhiId} {data : Phi} {v : ValueId} (hv : f.values.contains v = true)
    (hr : data.result ≠ v) : (f.dropPhi p data).values.contains v = true := by
  obtain ⟨val, hval⟩ := Option.isSome_iff_exists.1 hv
  exact Option.isSome_iff_exists.2 ⟨_, dropPhi_values_eq_some.2 ⟨hr, val, hval, rfl⟩⟩

theorem dropInst_contains {i : InstId} {data : Inst} {v : ValueId}
    (hv : f.values.contains v = true) (hr : data.result ≠ some v) :
    (f.dropInst i data).values.contains v = true := by
  obtain ⟨val, hval⟩ := Option.isSome_iff_exists.1 hv
  exact Option.isSome_iff_exists.2 ⟨_, dropInst_values_eq_some.2 ⟨hr, val, hval, rfl⟩⟩

theorem forM_discardPhi (ps : List PhiId) (h : f.Linked loose) (hu : f.UsesAgree)
    (hun : ∀ p ∈ ps, ∀ b d, f.blocks.get? b = some d → p ∉ d.phis) :
    ∃ g, (ps.forM discardPhi).apply f = (.ok (), g) ∧ g.Linked loose ∧ g.UsesAgree ∧
      g.blocks = f.blocks ∧ g.entry = f.entry ∧ g.insts = f.insts ∧
      (∀ p, g.phis.get? p = if p ∈ ps then none else f.phis.get? p) ∧
      ∀ v, f.values.contains v = true → g.values.contains v = true ∨
        ∃ p ∈ ps, ∃ phi, f.phis.get? p = some phi ∧ phi.result = v := by
  induction ps generalizing f with
  | nil => exact ⟨f, rfl, h, hu, rfl, rfl, rfl, by simp, fun v hv => .inl hv⟩
  | cons p ps ih =>
    have hun' : ∀ q ∈ ps, ∀ b d, f.blocks.get? b = some d → q ∉ d.phis :=
      fun q hq => hun q (List.mem_cons_of_mem _ hq)
    cases hp : f.phis.get? p with
    | none =>
      have hskip : (discardPhi p).apply f = (.ok (), f) := by
        simp [discardPhi, apply_bind, hp]
      obtain ⟨g, hrun, hl, hug, hb, he, hi, hget, hval⟩ := ih h hu hun'
      refine ⟨g, (apply_forM_cons hskip).trans hrun, hl, hug, hb, he, hi, fun q => ?_, fun v hv => ?_⟩
      · rw [hget]
        by_cases hq : q = p
        · simp [hq, hp]
        · simp [hq]
      · refine (hval v hv).imp_right ?_
        rintro ⟨q, hq, hrest⟩
        exact ⟨q, List.mem_cons_of_mem _ hq, hrest⟩
    | some data =>
      have hdrop := discardPhi_apply hp (h.phi_result p data hp)
      obtain ⟨g, hrun, hl, hug, hb, he, hi, hget, hval⟩ := ih
        (h.dropPhi hp (hun p List.mem_cons_self)) (hu.dropPhi hp) (by simpa using hun')
      refine ⟨g, (apply_forM_cons hdrop).trans hrun, hl, hug, by simpa using hb, by simpa using he,
        by simpa using hi, fun q => ?_, fun v hv => ?_⟩
      · rw [hget]
        by_cases hq : q = p
        · simp [hq]
        · simp [hq]
      · by_cases hr : data.result = v
        · exact .inr ⟨p, List.mem_cons_self, data, hp, hr⟩
        · refine (hval v (dropPhi_contains hv hr)).imp_right ?_
          rintro ⟨q, hq, phi, hphi, hres⟩
          rw [dropPhi_phis, Arena.get?_erase] at hphi
          split at hphi
          · cases hphi
          · exact ⟨q, List.mem_cons_of_mem _ hq, phi, hphi, hres⟩

theorem forM_discardInst (is : List InstId) (h : f.Linked loose) (hu : f.UsesAgree)
    (hun : ∀ i ∈ is, ∀ b d, f.blocks.get? b = some d → i ∉ d.insts) :
    ∃ g, (is.forM discardInst).apply f = (.ok (), g) ∧ g.Linked loose ∧ g.UsesAgree ∧
      g.blocks = f.blocks ∧ g.entry = f.entry ∧ g.phis = f.phis ∧
      (∀ i, g.insts.get? i = if i ∈ is then none else f.insts.get? i) ∧
      ∀ v, f.values.contains v = true → g.values.contains v = true ∨
        ∃ i ∈ is, ∃ inst, f.insts.get? i = some inst ∧ inst.result = some v := by
  induction is generalizing f with
  | nil => exact ⟨f, rfl, h, hu, rfl, rfl, rfl, by simp, fun v hv => .inl hv⟩
  | cons i is ih =>
    have hun' : ∀ j ∈ is, ∀ b d, f.blocks.get? b = some d → j ∉ d.insts :=
      fun j hj => hun j (List.mem_cons_of_mem _ hj)
    cases hi : f.insts.get? i with
    | none =>
      have hskip : (discardInst i).apply f = (.ok (), f) := by
        simp [discardInst, apply_bind, hi]
      obtain ⟨g, hrun, hl, hug, hb, he, hp, hget, hval⟩ := ih h hu hun'
      refine ⟨g, (apply_forM_cons hskip).trans hrun, hl, hug, hb, he, hp, fun j => ?_, fun v hv => ?_⟩
      · rw [hget]
        by_cases hj : j = i
        · simp [hj, hi]
        · simp [hj]
      · refine (hval v hv).imp_right ?_
        rintro ⟨j, hj, hrest⟩
        exact ⟨j, List.mem_cons_of_mem _ hj, hrest⟩
    | some data =>
      have hdrop := discardInst_apply hi fun v hv => h.inst_result i data v hi hv
      obtain ⟨g, hrun, hl, hug, hb, he, hp, hget, hval⟩ := ih
        (h.dropInst hi (hun i List.mem_cons_self)) (hu.dropInst hi) (by simpa using hun')
      refine ⟨g, (apply_forM_cons hdrop).trans hrun, hl, hug, by simpa using hb, by simpa using he,
        by simpa using hp, fun j => ?_, fun v hv => ?_⟩
      · rw [hget]
        by_cases hj : j = i
        · simp [hj]
        · simp [hj]
      · by_cases hr : data.result = some v
        · exact .inr ⟨i, List.mem_cons_self, data, hi, hr⟩
        · refine (hval v (dropInst_contains hv hr)).imp_right ?_
          rintro ⟨j, hj, inst, hinst, hres⟩
          rw [dropInst_insts, Arena.get?_erase] at hinst
          split at hinst
          · cases hinst
          · exact ⟨j, List.mem_cons_of_mem _ hj, inst, hinst, hres⟩

theorem mem_resultsOf {data : Block} {v : ValueId} : v ∈ resultsOf f data ↔
    (∃ i ∈ data.insts, ∃ inst, f.insts.get? i = some inst ∧ inst.result = some v) ∨
      ∃ p ∈ data.phis, ∃ phi, f.phis.get? p = some phi ∧ phi.result = v := by
  simp only [resultsOf, List.mem_append, List.mem_filterMap, Option.bind_eq_some_iff,
    Option.map_eq_some_iff]

/-- A block that only loose users belong to or target goes with all that it lists. -/
theorem discardBlock_ok (h : f.Linked loose) (hu : f.UsesAgree) {b : BlockId} {data : Block}
    (hb : f.blocks.get? b = some data) (hne : b ≠ f.entry) (hlist : ∀ u, data.Lists u → loose u)
    (htarget : ∀ i inst, f.insts.get? i = some inst → b ∈ inst.opcode.targets → loose (.inst i)) :
    ∃ g, (discardBlock b).apply f = (.ok (), g) ∧ g.Linked loose ∧ g.UsesAgree ∧
      g.blocks = f.blocks.erase b ∧ g.entry = f.entry ∧
      (∀ i, g.insts.get? i = if i ∈ data.insts then none else f.insts.get? i) ∧
      (∀ p, g.phis.get? p = if p ∈ data.phis then none else f.phis.get? p) ∧
      ∀ v, f.values.contains v = true → g.values.contains v = true ∨ v ∈ resultsOf f data := by
  have herase := h.eraseBlock hne
    (fun i inst hi hor => hor.elim (fun hblock => by
      by_contra hl
      obtain ⟨d, hd, hmem⟩ := h.inst_listed i inst hi hl
      rw [hblock, hb] at hd
      obtain rfl := Option.some.inj hd
      exact hl (hlist (.inst i) hmem)) (htarget i inst hi))
    (fun p phi hp hblock => by
      by_contra hl
      obtain ⟨d, hd, hmem⟩ := h.phi_listed p phi hp hl
      rw [hblock, hb] at hd
      obtain rfl := Option.some.inj hd
      exact hl (hlist (.phi p) hmem))
  have husesErase : Func.UsesAgree { f with blocks := f.blocks.erase b } :=
    hu.congr rfl fun v u => by cases u <;> rfl
  obtain ⟨g₁, hrun₁, hl₁, hu₁, hb₁, he₁, hi₁, hp₁, hv₁⟩ := forM_discardPhi data.phis herase husesErase (by
    intro p hp c d hc hmem
    simp only [Arena.get?_erase] at hc
    grind [h.listed_phi])
  obtain ⟨g₂, hrun₂, hl₂, hu₂, hb₂, he₂, hp₂, hi₂, hv₂⟩ := forM_discardInst data.insts hl₁ hu₁ (by
    intro i hi c d hc hmem
    simp only [hb₁, Arena.get?_erase] at hc
    grind [h.listed_inst])
  refine ⟨g₂, ?_, hl₂, hu₂, hb₂.trans hb₁, he₂.trans he₁, fun i => ?_, fun p => ?_, fun v hv => ?_⟩
  · simp only [discardBlock, apply_bind, apply_query, Func.block_eq_ok.2 hb, apply_modify, hrun₁,
      hrun₂]
  · rw [hi₂, hi₁]
  · rw [hp₂, hp₁]
  · rcases hv₁ v hv with hv | ⟨p, hp, phi, hphi, hres⟩
    · refine (hv₂ v hv).imp_right fun ⟨i, hi, inst, hinst, hres⟩ => ?_
      exact mem_resultsOf.2 (.inl ⟨i, hi, inst, hi₁ ▸ hinst, hres⟩)
    · exact .inr (mem_resultsOf.2 (.inr ⟨p, hp, phi, hphi, hres⟩))

/-- Functions that only differ from a linked one in that some slots are gone. -/
structure SlotsOf (f g : Func) : Prop where
  shape : f.SameShape g
  uses : g.UsesAgree
  held_le : ∀ v u, g.held v u ≤ f.held v u

theorem SlotsOf.refl (h : f.UsesAgree) : SlotsOf f f := ⟨.refl f, h, fun _ _ => Nat.le_refl _⟩

theorem held_withoutSource_le {p : PhiId} {phi : Phi} (hp : f.phis.get? p = some phi)
    (pred : BlockId) (v : ValueId) (u : User) :
    (f.withoutSource p (phi.source pred) pred).held v u ≤ f.held v u := by
  have hsame : (f.withoutSource p (phi.source pred) pred).held v u =
      Func.held { f with
        phis := f.phis.modify p fun d => { d with sources := d.sources.erase pred } } v u := by
    rw [withoutSource]
    cases u <;> simp [held_inst, held_phi]
  rw [hsame, held_modifyPhi]
  split
  · subst u
    rw [held_phi, hp]
    have hcount := OrderedMap.count_values_erase phi.sources pred v
    simp only [Option.map_some, Option.getD_some, Phi.holds]
    omega
  · exact Nat.le_refl _

theorem dropEdgeSources_ok (h : f.Linked loose) (pred b : BlockId) (hg : SlotsOf f g) :
    ∃ k, (dropEdgeSources pred b).apply g = (.ok (), k) ∧ SlotsOf f k := by
  unfold dropEdgeSources
  simp only [apply_bind, apply_get]
  cases hb : g.blocks.get? b with
  | none => exact ⟨g, rfl, hg⟩
  | some data =>
    refine forM_ok (P := SlotsOf f) ?_ hg
    intro p hp k hk
    obtain ⟨phi, hphi, -⟩ := h.listed_phi b data p (hg.shape.blocks ▸ hb) hp
    obtain ⟨phi', hphi', -⟩ := hk.shape.symm.get?_phi hphi
    refine ⟨k.withoutSource p (phi'.source pred) pred, ?_, hk.shape.trans (.withoutSource _ _ _ _),
      hk.uses.withoutSource hphi',
      fun v u => Nat.le_trans (held_withoutSource_le hphi' pred v u) (hk.held_le v u)⟩
    have hrun : (removePhiSource p pred).apply k =
        (.ok (phi'.source pred), k.withoutSource p (phi'.source pred) pred) := by
      simp only [removePhiSource, apply_bind, apply_query, Func.phi_eq_ok.2 hphi', apply_modify,
        apply_pure]
      rfl
    rw [apply_discard, hrun]
    rfl

theorem forM_dropEdgeSources_ok (h : f.Linked loose) (pred : BlockId) (bs : List BlockId)
    (hg : SlotsOf f g) :
    ∃ k, (bs.forM (dropEdgeSources pred)).apply g = (.ok (), k) ∧ SlotsOf f k :=
  forM_ok (fun b _ _ hk => dropEdgeSources_ok h pred b hk) hg

theorem checkRemovable_ok {b : BlockId} (h : checkRemovable b f = .ok ()) :
    b ≠ f.entry ∧ (∀ c ∈ f.predecessors b, c = b) ∧ ∃ data, f.blocks.get? b = some data ∧
      ∀ v ∈ resultsOf f data, ∃ val, f.values.get? v = some val ∧
        ∀ u ∈ val.users, f.userBlock u.1 = .ok b := by
  unfold checkRemovable at h
  dsimp only at h
  split at h
  · cases h
  · rename_i hne
    obtain ⟨data, hdata, h⟩ := bind_eq_ok.1 h
    split at h
    · cases h
    · rename_i hnone
      refine ⟨hne, fun c hc => ?_, data, Func.block_eq_ok.1 hdata, fun v hv => ?_⟩
      · have := List.find?_eq_none.1 hnone c hc
        simpa using this
      · obtain ⟨val, hval, husers⟩ := bind_eq_ok.1 (forM_eq_ok.1 h v hv)
        refine ⟨val, Func.value_eq_ok.1 hval, fun u hu => ?_⟩
        obtain ⟨c, hc, hrest⟩ := bind_eq_ok.1 (forM_eq_ok.1 husers u hu)
        split at hrest
        · cases hrest
        · rename_i hcb
          rw [hc, not_not.1 hcb]

theorem sound_of_invalidate (h : f.Linked fun _ => False) (hu : f.UsesAgree) :
    f.invalidateDominance.Sound :=
  ⟨h.of_fields rfl rfl rfl rfl rfl rfl, hu.congr rfl fun v u => by cases u <;> rfl, .of_none rfl⟩

/-- A block is removed with all that it lists, or the function stays as it is. -/
theorem removeBlock_yields (h : f.Sound) (b : BlockId) :
    (removeBlock b).Yields f fun _ g => g.Sound ∧ checkRemovable b f = .ok () ∧
      ∃ data, f.blocks.get? b = some data ∧ (∀ v u, g.held v u ≤ f.held v u) ∧
        (∀ v u, data.Lists u → g.held v u = 0) ∧
        ∀ v, f.values.contains v = true → g.values.contains v = true ∨ v ∈ resultsOf f data := by
  cases hc : checkRemovable b f with
  | error err =>
    refine .inl ⟨err, ?_⟩
    simp only [removeBlock, apply_bind, apply_query, hc]
  | ok _ =>
    obtain ⟨hne, hpreds, data, hb, -⟩ := checkRemovable_ok hc
    -- No other block branches to this one, so what targets it stands in it.
    have htarget : ∀ i inst, f.insts.get? i = some inst → b ∈ inst.opcode.targets →
        data.Lists (.inst i) := by
      intro i inst hi ht
      obtain ⟨⟨d, hd, hmem⟩, hsucc⟩ := h.linked.mem_successors hi id ht
      have hpred : inst.block ∈ f.predecessors b := by
        rw [predecessors, List.mem_filter, mem_blockIds, hasBlock_iff, List.contains_iff_mem]
        exact ⟨⟨d, hd⟩, hsucc⟩
      rw [hpreds _ hpred, hb] at hd
      exact Option.some.inj hd ▸ hmem
    have hloose : f.Linked data.Lists := h.linked.mono fun _ => False.elim
    obtain ⟨g, hrun, hl, hu, hblocks, -, hi, hp, hval⟩ :=
      discardBlock_ok hloose h.uses hb hne (fun _ => id) htarget
    have hsettled : g.Linked fun _ => False :=
      hl.settle (fun i hmem => (hi i).trans (if_pos hmem)) fun p hmem => (hp p).trans (if_pos hmem)
    -- The phis that the block led to still have sources for it.
    obtain ⟨k, hrun', hslots⟩ := forM_dropEdgeSources_ok hsettled b (f.successors b) (.refl hu)
    refine .inr ⟨(), k.invalidateDominance, ?_,
      sound_of_invalidate (hsettled.congr hslots.shape) hslots.uses, rfl, data, hb, ?_, ?_, ?_⟩
    · simp only [removeBlock, apply_bind, apply_query, hc, apply_get, hrun, hrun']
      rfl
    · intro v u
      refine Nat.le_trans (hslots.held_le v u) ?_
      cases u with
      | inst i =>
        rw [held_inst, held_inst, hi]
        split <;> simp
      | phi p =>
        rw [held_phi, held_phi, hp]
        split <;> simp
    · intro v u hlists
      refine Nat.le_zero.1 (Nat.le_trans (hslots.held_le v u) ?_)
      cases u with
      | inst i =>
        have hmem : i ∈ data.insts := hlists
        rw [held_inst, hi, if_pos hmem]
        rfl
      | phi p =>
        have hmem : p ∈ data.phis := hlists
        rw [held_phi, hp, if_pos hmem]
        rfl
    · intro v hv
      exact (hval v hv).imp_left (hslots.shape.contains_value v).trans

theorem removeBlock_sound (h : f.Sound) (b : BlockId) : ((removeBlock b).apply f).2.Sound :=
  (removeBlock_yields h b).imp (fun _ _ hg => hg.1) |>.snd h

theorem forM_discardBlock (bs : List BlockId) (hnodup : bs.Nodup) (h : f.Linked loose)
    (hu : f.UsesAgree) (hne : ∀ b ∈ bs, b ≠ f.entry)
    (hlist : ∀ b ∈ bs, ∃ data, f.blocks.get? b = some data ∧ ∀ u, data.Lists u → loose u)
    (htarget : ∀ b ∈ bs, ∀ i inst, f.insts.get? i = some inst → b ∈ inst.opcode.targets →
      loose (.inst i)) :
    ∃ g, (bs.forM discardBlock).apply f = (.ok (), g) ∧ g.Linked loose ∧ g.UsesAgree ∧
      (∀ b, g.hasBlock b = true → f.hasBlock b = true ∧ b ∉ bs) ∧
      (∀ i, f.insts.get? i = none → g.insts.get? i = none) ∧
      (∀ p, f.phis.get? p = none → g.phis.get? p = none) ∧
      ∀ b ∈ bs, ∀ data, f.blocks.get? b = some data →
        (∀ i ∈ data.insts, g.insts.get? i = none) ∧ ∀ p ∈ data.phis, g.phis.get? p = none := by
  induction bs generalizing f with
  | nil =>
    exact ⟨f, rfl, h, hu, fun b hb => ⟨hb, List.not_mem_nil⟩, fun i => id, fun p => id, by simp⟩
  | cons b bs ih =>
    obtain ⟨hb, hnodup⟩ := List.nodup_cons.1 hnodup
    obtain ⟨data, hdata, hl⟩ := hlist b List.mem_cons_self
    obtain ⟨g, hrun, hlg, hug, hblocks, hentry, hi, hp, -⟩ := discardBlock_ok h hu hdata
      (hne b List.mem_cons_self) hl (htarget b List.mem_cons_self)
    -- The blocks still to go are as they were, so what the hypotheses say of them stays true.
    have hkeep : ∀ c ∈ bs, g.blocks.get? c = f.blocks.get? c := by
      intro c hc
      have hcb : c ≠ b := fun heq => hb (heq ▸ hc)
      rw [hblocks, Arena.get?_erase, if_neg hcb]
    obtain ⟨k, hrunk, hlk, huk, hbk, hik, hpk, hgone⟩ := ih hnodup hlg hug
      (fun c hc => hentry ▸ hne c (List.mem_cons_of_mem _ hc))
      (fun c hc => by rw [hkeep c hc]; exact hlist c (List.mem_cons_of_mem _ hc))
      (fun c hc i inst hget ht => htarget c (List.mem_cons_of_mem _ hc) i inst (by
        rw [hi] at hget
        split at hget
        · cases hget
        · exact hget) ht)
    refine ⟨k, (apply_forM_cons hrun).trans hrunk, hlk, huk, fun c hc => ?_,
      fun i hnone => hik i ?_, fun p hnone => hpk p ?_, ?_⟩
    · obtain ⟨hlive, hbs⟩ := hbk c hc
      rw [hasBlock, hblocks, Arena.contains_erase, Bool.and_eq_true, decide_eq_true_eq] at hlive
      exact ⟨hlive.2, fun hmem => (List.mem_cons.1 hmem).elim hlive.1 hbs⟩
    · rw [hi, hnone, ite_self]
    · rw [hp, hnone, ite_self]
    · intro c hc d hd
      rcases List.mem_cons.1 hc with rfl | hc
      · obtain rfl := Option.some.inj (hdata.symm.trans hd)
        exact ⟨fun i hmem => hik i ((hi i).trans (if_pos hmem)),
          fun p hmem => hpk p ((hp p).trans (if_pos hmem))⟩
      · exact hgone c hc d ((hkeep c hc).trans hd)

theorem mem_reachableBlocks (h : f.Linked fun _ => False) {b : BlockId} :
    b ∈ f.reachableBlocks ↔ f.toFlowGraph.Reaches f.entry b := by
  refine FlowGraph.mem_preorder (fun n s hs => ?_) f.entry b
  exact hasBlock_lt (hasBlock_iff.2 (h.successor_live hs))

/-- First the edges from the dead blocks to the others are cut. -/
theorem cutEdges_ok (h : f.Sound) (dead : List BlockId) :
    ∃ g, (dead.forM fun b => do
      let g ← get
      (g.successors b).forM fun s => do
        if f.reachableBlocks.contains s then dropEdgeSources b s : Edit Unit).apply f =
      (.ok (), g) ∧ SlotsOf f g := by
  refine forM_ok (P := SlotsOf f) (fun b _ k hk => ?_) (.refl h.uses)
  simp only [apply_bind, apply_get]
  refine forM_ok (P := SlotsOf f) (fun s _ k' hk' => ?_) hk
  split
  · exact dropEdgeSources_ok h.linked b s hk'
  · exact ⟨k', rfl, hk'⟩

/-- Then the dead blocks are discarded with their members, which nothing refers to any more. -/
theorem discardUnreached_ok (h : f.Sound) (hg : SlotsOf f g) {dead : List BlockId}
    (hnodup : dead.Nodup)
    (hdead : ∀ b, b ∈ dead ↔ f.hasBlock b = true ∧ ¬ f.toFlowGraph.Reaches f.entry b) :
    ∃ k, (dead.forM discardBlock).apply g = (.ok (), k) ∧ k.Linked (fun _ => False) ∧
      k.UsesAgree ∧ ∀ b, k.hasBlock b = true → f.toFlowGraph.Reaches f.entry b := by
  obtain ⟨hshape, huses, -⟩ := hg
  -- While they are taken apart, the members of dead blocks are loose.
  let loose : User → Prop := fun u => ∃ b ∈ dead, ∃ data, f.blocks.get? b = some data ∧ data.Lists u
  have hloose : g.Linked loose := (h.linked.congr hshape).mono fun _ => False.elim
  obtain ⟨k, hrun, hl, hu, hlive, -, -, hgone⟩ := forM_discardBlock dead hnodup hloose huses
    (fun b hb => by
      rw [hshape.entry]
      rintro rfl
      exact ((hdead _).1 hb).2 (.refl _))
    (fun b hb => by
      obtain ⟨data, hdata⟩ := hasBlock_iff.1 ((hdead b).1 hb).1
      exact ⟨data, hshape.blocks ▸ hdata, fun u hu => ⟨b, hb, data, hdata, hu⟩⟩)
    (fun b hb i inst hi ht => by
      obtain ⟨inst', hi', hop, -, -⟩ := hshape.get?_inst hi
      obtain ⟨⟨data, hdata, hin⟩, hsucc⟩ := h.linked.mem_successors hi' id (hop ▸ ht)
      refine ⟨inst'.block, (hdead _).2 ⟨hasBlock_iff.2 ⟨data, hdata⟩, fun hreach => ?_⟩, data,
        hdata, hin⟩
      exact ((hdead b).1 hb).2 (hreach.step hsucc))
  refine ⟨k, hrun, hl.settle ?_ ?_, hu, fun b hb => ?_⟩
  · rintro i ⟨b, hb, data, hdata, hin⟩
    exact (hgone b hb data (hshape.blocks ▸ hdata)).1 i hin
  · rintro p ⟨b, hb, data, hdata, hin⟩
    exact (hgone b hb data (hshape.blocks ▸ hdata)).2 p hin
  · obtain ⟨hb, hkept⟩ := hlive b hb
    by_contra hreach
    refine hkept ((hdead b).2 ⟨?_, hreach⟩)
    rwa [hasBlock, hshape.blocks] at hb

/-- The removal of the blocks that the entry does not reach cannot fail and leaves no such block. -/
theorem removeUnreachable_ok (h : f.Sound) :
    ∃ dead g, removeUnreachable.apply f = (.ok dead, g) ∧ g.Sound ∧
      ∀ b, g.hasBlock b = true → f.toFlowGraph.Reaches f.entry b := by
  obtain ⟨dead, hdead⟩ : ∃ dead, dead = f.blockIds.filter fun b => !f.reachableBlocks.contains b :=
    ⟨_, rfl⟩
  have hmem : ∀ b, b ∈ dead ↔ f.hasBlock b = true ∧ ¬ f.toFlowGraph.Reaches f.entry b := by
    intro b
    rw [hdead, List.mem_filter, mem_blockIds, ← mem_reachableBlocks h.linked]
    simp
  by_cases hempty : dead.isEmpty = true
  · have hrun : removeUnreachable.apply f = (.ok [], f) := by
      simp only [removeUnreachable, apply_bind, apply_get, ← hdead, hempty, if_true, apply_pure]
    refine ⟨[], f, hrun, h, fun b hb => ?_⟩
    by_contra hreach
    rw [List.isEmpty_iff.1 hempty] at hmem
    exact List.not_mem_nil ((hmem b).2 ⟨hb, hreach⟩)
  obtain ⟨g, hcut, hg⟩ := cutEdges_ok h dead
  have hnodup : dead.Nodup := hdead ▸ (blockIds_nodup f).filter _
  obtain ⟨k, hdiscard, hl, hu, hlive⟩ := discardUnreached_ok h hg hnodup hmem
  have hrun : removeUnreachable.apply f = (.ok dead, k.invalidateDominance) := by
    simp only [removeUnreachable, apply_bind, apply_get, ← hdead, hempty, Bool.false_eq_true,
      if_false, hcut, hdiscard]
    rfl
  exact ⟨dead, k.invalidateDominance, hrun, sound_of_invalidate hl hu, hlive⟩

theorem removeUnreachable_sound (h : f.Sound) : (removeUnreachable.apply f).2.Sound := by
  obtain ⟨dead, g, hrun, hg, -⟩ := removeUnreachable_ok h
  rw [hrun]
  exact hg

end Edit

end Midend
