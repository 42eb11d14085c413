import Midend.Proofs.Edit.Built
import Midend.Proofs.Func.Verified

namespace Midend

namespace Func

variable {f g : Func} {v w : ValueId} {u : User}

theorem slotsLive_iff : f.SlotsLive ↔ ∀ v u, 0 < f.held v u → f.values.contains v = true := by
  constructor
  · intro h v u hheld
    cases u with
    | inst i =>
      obtain ⟨inst, hi, hv⟩ := operand_of_held hheld
      exact h.operand i inst v hi hv
    | phi p =>
      obtain ⟨phi, q, hp, hq⟩ := source_of_held hheld
      exact h.source p phi q v hp hq
  · intro h
    exact ⟨fun i inst v hi hv => h v (.inst i) (held_operand_pos hi hv),
      fun p phi q v hp hq => h v (.phi p) (held_source_pos hp hq)⟩

namespace SlotsLive

theorem contains_of_held (h : f.SlotsLive) (hheld : 0 < f.held v u) : f.values.contains v = true :=
  slotsLive_iff.1 h v u hheld

theorem of_held (hheld : ∀ v u, 0 < g.held v u → f.values.contains v = true)
    (hkeep : ∀ v, f.values.contains v = true → g.values.contains v = true) : g.SlotsLive :=
  slotsLive_iff.2 fun v u hv => hkeep v (hheld v u hv)

theorem congr (h : f.SlotsLive) (hheld : ∀ v u, g.held v u = f.held v u)
    (hkeep : ∀ v, f.values.contains v = true → g.values.contains v = true) : g.SlotsLive :=
  of_held (fun v u hv => h.contains_of_held (hheld v u ▸ hv)) hkeep

/-- Slots that come to hold one more live value, while values keep their shape. -/
theorem widen (h : f.SlotsLive) (hshape : f.SameShape g) (hv : f.values.contains v = true)
    (hheld : ∀ w u, g.held w u ≤ f.held w u + if v = w then 1 else 0) : g.SlotsLive := by
  refine of_held (f := f) (fun w u hw => ?_) fun w hw => ?_
  · by_cases hvw : v = w
    · exact hvw ▸ hv
    · have hle := hheld w u
      rw [if_neg hvw] at hle
      exact h.contains_of_held (Nat.lt_of_lt_of_le hw hle)
  · exact (hshape.contains_value w).trans hw

end SlotsLive

theorem held_withSource_le {p : PhiId} {phi : Phi} (hp : f.phis.get? p = some phi) (pred : BlockId)
    (v w : ValueId) (u : User) :
    (f.withSource p (phi.source pred) pred v).held w u ≤ f.held w u + if v = w then 1 else 0 := by
  have hsame : (f.withSource p (phi.source pred) pred v).held w u =
      Func.held { f with
        phis := f.phis.modify p fun d => { d with sources := d.sources.insert pred v } } w u := by
    rw [withSource]
    cases u <;> simp [held_inst, held_phi]
  rw [hsame, held_modifyPhi]
  split
  · subst u
    rw [held_phi, hp]
    have hcount := OrderedMap.count_values_insert phi.sources pred v w
    simp only [Option.map_some, Option.getD_some, Phi.holds]
    omega
  · exact Nat.le_add_right _ _

theorem held_withOperand_le {i : InstId} {inst : Inst} {index : Nat} {old : ValueId}
    (hi : f.insts.get? i = some inst) (ho : inst.operands[index]? = some old) (v w : ValueId)
    (u : User) :
    (f.withOperand i index old v).held w u ≤ f.held w u + if v = w then 1 else 0 := by
  have hsame : (f.withOperand i index old v).held w u =
      Func.held { f with
        insts := f.insts.modify i fun d => { d with operands := d.operands.set index v } } w u := by
    rw [withOperand]
    cases u <;> simp [held_inst, held_phi]
  rw [hsame, held_modifyInst]
  split
  · subst u
    rw [held_inst, hi]
    have hcount := count_set ho v w
    simp only [Option.map_some, Option.getD_some, Inst.holds]
    omega
  · exact Nat.le_add_right _ _

theorem held_withPhi (f : Func) (b : BlockId) (v : ValueId) (u : User) :
    (f.withPhi b).held v u = f.held v u := by
  cases u with
  | inst i => rfl
  | phi p =>
    simp only [held_phi, Func.withPhi, Arena.get?_push]
    split
    · rename_i hp
      rw [hp, Arena.get?_next]
      rfl
    · rfl

theorem SlotsLive.replaced {old new : ValueId} (h : f.SlotsLive) (hr : Replaced old new f g)
    (hnew : old = new ∨ f.values.contains new = true) : g.SlotsLive := by
  have hswap : ∀ v, f.values.contains v = true → g.values.contains (swap old new v) = true := by
    intro v hv
    have hkeep : ∀ w, f.values.contains w = true → g.values.contains w = true :=
      fun w hw => (hr.shape.contains_value w).trans hw
    unfold swap
    split
    · subst v
      rcases hnew with rfl | hlive
      · exact hkeep old hv
      · exact hkeep new hlive
    · exact hkeep v hv
  refine ⟨fun i inst v hi hv => ?_, fun p phi q v hp hv => ?_⟩
  · rw [hr.insts] at hi
    obtain ⟨inst', hi', rfl⟩ := Option.map_eq_some_iff.1 hi
    obtain ⟨w, hw, rfl⟩ := List.mem_map.1 hv
    exact hswap w (h.operand i inst' w hi' hw)
  · rw [hr.phis] at hp
    obtain ⟨phi', hp', rfl⟩ := Option.map_eq_some_iff.1 hp
    obtain ⟨w, hw, rfl⟩ := Option.map_eq_some_iff.1
      ((OrderedMap.get?_mapValues _ phi'.sources q).symm.trans hv)
    exact hswap w (h.source p phi' q w hp' hw)

/-- A user that goes takes along a value that no other user held. -/
theorem SlotsLive.erase (h : f.SlotsLive) (hheld : ∀ v u, g.held v u ≤ f.held v u)
    (hkeep : ∀ v, f.values.contains v = true → g.values.contains v = true ∨ ∀ u, g.held v u = 0) :
    g.SlotsLive := by
  refine slotsLive_iff.2 fun v u hv => ?_
  rcases hkeep v (h.contains_of_held (Nat.lt_of_lt_of_le hv (hheld v u))) with hkept | hzero
  · exact hkept
  · rw [hzero u] at hv
    exact absurd hv (Nat.lt_irrefl 0)

/-- `g` is `f` without an instruction whose result no slot held. -/
structure WithoutInst (i : InstId) (data : Inst) (f g : Func) : Prop where
  insts : g.insts = f.insts.erase i
  phis : g.phis = f.phis
  entry : g.entry = f.entry
  arguments : g.arguments = f.arguments
  limit : g.dominanceLimit = f.dominanceLimit
  dominance : data.isTerminator = false → g.dominance = f.dominance
  blocks : g.blocks =
    f.blocks.modify data.block fun d => { d with insts := d.insts.filter (· ≠ i) }
  values : ∀ v val, g.values.get? v = some val ↔ data.result ≠ some v ∧
    ∃ old, f.values.get? v = some old ∧
      (if v ∈ data.operands then old.dropUses (.inst i) else old) = val
  unused : ∀ v u, data.result = some v → f.held v u = 0

/-- `g` is `f` without a phi whose result no slot of another user held. -/
structure WithoutPhi (p : PhiId) (data : Phi) (f g : Func) : Prop where
  insts : g.insts = f.insts
  phis : g.phis = f.phis.erase p
  entry : g.entry = f.entry
  arguments : g.arguments = f.arguments
  limit : g.dominanceLimit = f.dominanceLimit
  dominance : g.dominance = f.dominance
  blocks : g.blocks =
    f.blocks.modify data.block fun d => { d with phis := d.phis.filter (· ≠ p) }
  values : ∀ v val, g.values.get? v = some val ↔ data.result ≠ v ∧
    ∃ old, f.values.get? v = some old ∧
      (if v ∈ data.sources.values then old.dropUses (.phi p) else old) = val
  unused : ∀ u, u ≠ .phi p → f.held data.result u = 0

section Without

variable {i : InstId} {inst : Inst} {p : PhiId} {phi : Phi}

theorem WithoutInst.of_drop (hunused : ∀ v u, inst.result = some v → f.held v u = 0) :
    WithoutInst i inst f ((f.unlistInst inst.block i).dropInst i inst) where
  insts := by simp [unlistInst]
  phis := by simp [unlistInst]
  entry := by simp [unlistInst]
  arguments := by simp [unlistInst]
  limit := by
    simp only [dropInst, releaseUses_eq]
    cases inst.result <;> rfl
  dominance _ := by
    simp only [dropInst, releaseUses_eq]
    cases inst.result <;> rfl
  blocks := by simp [unlistInst]
  values _ _ := dropInst_values_eq_some
  unused := hunused

theorem WithoutPhi.of_drop (hunused : ∀ u, u ≠ .phi p → f.held phi.result u = 0) :
    WithoutPhi p phi f ((f.unlistPhi phi.block p).dropPhi p phi) where
  insts := by simp [unlistPhi]
  phis := by simp [unlistPhi]
  entry := by simp [unlistPhi]
  arguments := by simp [unlistPhi]
  limit := by
    simp only [dropPhi, releaseUses_eq]
    rfl
  dominance := by
    simp only [dropPhi, releaseUses_eq]
    rfl
  blocks := by simp [unlistPhi]
  values _ _ := dropPhi_values_eq_some
  unused := hunused

theorem WithoutInst.held_le (hg : WithoutInst i inst f g) (v : ValueId) (u : User) :
    g.held v u ≤ f.held v u := by
  cases u with
  | inst j =>
    rw [held_inst, held_inst, hg.insts, Arena.get?_erase]
    split <;> simp
  | phi p => rw [held_phi, held_phi, hg.phis]

theorem WithoutInst.contains (hg : WithoutInst i inst f g) {v : ValueId}
    (hv : f.values.contains v = true) (hne : inst.result ≠ some v) :
    g.values.contains v = true := by
  obtain ⟨old, hold⟩ := Option.isSome_iff_exists.1 hv
  exact Option.isSome_iff_exists.2 ⟨_, (hg.values v _).2 ⟨hne, old, hold, rfl⟩⟩

theorem WithoutInst.get?_value (hg : WithoutInst i inst f g) {v : ValueId} {val : Value}
    (hv : g.values.get? v = some val) :
    ∃ old, f.values.get? v = some old ∧ old.definition = val.definition := by
  obtain ⟨-, old, hold, rfl⟩ := (hg.values v val).1 hv
  refine ⟨old, hold, ?_⟩
  split <;> simp

theorem WithoutInst.contains_inst (hg : WithoutInst i inst f g) (j : InstId) :
    g.insts.contains j = (decide (j ≠ i) && f.insts.contains j) := by
  rw [hg.insts, Arena.contains_erase]

theorem WithoutInst.map_insts (hg : WithoutInst i inst f g) (hf : f.Linked fun _ => False)
    (hi : f.insts.get? i = some inst) (b : BlockId) :
    (g.blocks.get? b).map Block.insts =
      ((f.blocks.get? b).map Block.insts).map (List.filter (· ≠ i)) := by
  rw [hg.blocks, Arena.get?_modify, Option.map_map]
  split
  · rw [Option.map_map]
    rfl
  · rename_i hne
    cases hb : f.blocks.get? b with
    | none => rfl
    | some data =>
      -- Another block does not list it.
      refine congrArg some (List.filter_eq_self.2 fun j hj => ?_).symm
      rw [decide_eq_true_eq]
      rintro rfl
      obtain ⟨inst', hi', hblock⟩ := hf.listed_inst b data j hb hj
      obtain rfl := Option.some.inj (hi.symm.trans hi')
      exact hne hblock.symm

theorem WithoutInst.slotsLive (hg : WithoutInst i inst f g) (hs : f.SlotsLive) : g.SlotsLive := by
  refine hs.erase hg.held_le fun v hv => ?_
  by_cases hr : inst.result = some v
  · exact .inr fun u => Nat.le_zero.1 (hg.unused v u hr ▸ hg.held_le v u)
  · exact .inl (hg.contains hv hr)

theorem WithoutPhi.held_le (hg : WithoutPhi p phi f g) (v : ValueId) (u : User) :
    g.held v u ≤ f.held v u := by
  cases u with
  | inst j => rw [held_inst, held_inst, hg.insts]
  | phi q =>
    rw [held_phi, held_phi, hg.phis, Arena.get?_erase]
    split <;> simp

theorem WithoutPhi.contains (hg : WithoutPhi p phi f g) {v : ValueId}
    (hv : f.values.contains v = true) (hne : phi.result ≠ v) : g.values.contains v = true := by
  obtain ⟨old, hold⟩ := Option.isSome_iff_exists.1 hv
  exact Option.isSome_iff_exists.2 ⟨_, (hg.values v _).2 ⟨hne, old, hold, rfl⟩⟩

theorem WithoutPhi.get?_value (hg : WithoutPhi p phi f g) {v : ValueId} {val : Value}
    (hv : g.values.get? v = some val) :
    ∃ old, f.values.get? v = some old ∧ old.definition = val.definition := by
  obtain ⟨-, old, hold, rfl⟩ := (hg.values v val).1 hv
  refine ⟨old, hold, ?_⟩
  split <;> simp

theorem WithoutPhi.slotsLive (hg : WithoutPhi p phi f g) (hs : f.SlotsLive) : g.SlotsLive := by
  refine hs.erase hg.held_le fun v hv => ?_
  by_cases hr : phi.result = v
  · refine .inr fun u => ?_
    by_cases hu : u = .phi p
    · rw [hu, held_phi, hg.phis, Arena.get?_erase, if_pos rfl]
      rfl
    · exact Nat.le_zero.1 (Nat.le_trans (hg.held_le v u) (Nat.le_of_eq (hr ▸ hg.unused u hu)))
  · exact .inl (hg.contains hv hr)

end Without

theorem contains_push {e : Entity} {α : Type} {a : Arena e α} {k : Handle e} (x : α)
    (h : a.contains k = true) : (a.push x).contains k = true := by
  rw [Arena.contains, Arena.get?_push]
  split
  · rfl
  · exact h

end Func

namespace Edit

open Func

variable {f : Func}

theorem place_slotsLive (h : f.SlotsLive) {b : BlockId} {position : Nat} {opcode : Opcode}
    {operands : List ValueId} (hc : checkOperation opcode operands f = .ok ()) :
    (place b position opcode operands f).2.SlotsLive := by
  obtain ⟨hops, -⟩ := checkOperation_ok hc
  rw [place_eq]
  refine .of_held (f := f) (fun v u hv => ?_) fun v hv => ?_
  · cases u with
    | phi p => exact h.contains_of_held (u := .phi p) hv
    | inst i =>
      simp only [held_inst, Arena.get?_push] at hv
      split at hv
      · obtain ⟨val, hval⟩ := hops v (List.count_pos_iff.1 hv)
        exact Option.isSome_iff_exists.2 ⟨val, hval⟩
      · exact h.contains_of_held (u := .inst i) hv
  · have hgrown : (f.withResult opcode).values.contains v = true := by
      unfold Func.withResult
      split
      · exact contains_push _ hv
      · exact hv
    have hget := get?_foldl_modify (fun _ val => val.addUses (.inst f.insts.next) 1) id operands
      (f.withResult opcode).values v
    rw [Arena.contains]
    refine (congrArg Option.isSome hget).trans ?_
    rw [Option.isSome_map]
    exact hgrown

theorem removeBlock_slotsLive (hs : f.Sound) (h : f.SlotsLive) (b : BlockId) :
    ((removeBlock b).apply f).2.SlotsLive := by
  refine (removeBlock_yields hs b).imp ?_ |>.snd h
  rintro _ g ⟨-, hc, data, hb, hle, hlisted, hkeep⟩
  refine h.erase hle fun v hv => (hkeep v hv).imp_right fun hres u => ?_
  -- Who holds a result of the block stands in the block, and is gone with it.
  obtain ⟨-, -, data', hb', husers⟩ := checkRemovable_ok hc
  obtain rfl := Option.some.inj (hb.symm.trans hb')
  obtain ⟨val, hval, hblock⟩ := husers v hres
  by_contra hpos
  have hheld : 0 < val.usesBy u := by
    rw [hs.uses.uses v val u hval]
    exact Nat.lt_of_lt_of_le (Nat.pos_of_ne_zero hpos) (hle v u)
  have huser := hblock _ ((Value.mem_users_iff (hs.uses.counted v val hval)).2 ⟨rfl, hheld⟩)
  refine hpos (hlisted v u ?_)
  cases u with
  | inst i =>
    obtain ⟨inst, hi, hret⟩ := bind_eq_ok.1 huser
    obtain ⟨d, hd, hmem⟩ := hs.linked.inst_listed i inst (inst_eq_ok.1 hi) id
    rw [pure_eq_ok.1 hret, hb] at hd
    exact Option.some.inj hd ▸ hmem
  | phi p =>
    obtain ⟨phi, hp, hret⟩ := bind_eq_ok.1 huser
    obtain ⟨d, hd, hmem⟩ := hs.linked.phi_listed p phi (phi_eq_ok.1 hp) id
    rw [pure_eq_ok.1 hret, hb] at hd
    exact Option.some.inj hd ▸ hmem

end Edit

namespace Call

open Func

variable {f : Func}

theorem Effect.slotsLive {g : Func} (hs : f.Sound) (he : Effect f g) (h : f.SlotsLive) :
    g.SlotsLive := by
  cases he with
  | same => exact h
  | newValue kind definition =>
    exact h.congr (fun v u => by cases u <;> rfl) fun v hv => contains_push _ hv
  | retarget term old new =>
    refine h.congr (fun v u => (held_modifyInst f term _ v u).trans ?_) fun v hv => hv
    split
    · subst u
      rfl
    · rfl
  | removeBlock b => exact Edit.removeBlock_slotsLive hs h b
  | place b position hcheck => exact Edit.place_slotsLive h hcheck
  | removeInst hunheld => exact (WithoutInst.of_drop hunheld).slotsLive h
  | setOperand hi ho hlive =>
    exact h.widen (.withOperand _ _ _ _ _) hlive fun w u => held_withOperand_le hi ho _ w u
  | replace hlive hr => exact h.replaced hr hlive
  | addPhi b => exact h.congr (held_withPhi f b) fun v hv => contains_push _ hv
  | setSource pred hp hlive =>
    exact h.widen (.withSource _ _ _ _ _) hlive fun w u => held_withSource_le hp pred _ w u
  | @removeSource p phi pred hp =>
    refine .of_held (f := f) (fun v u hv => ?_) fun v hv => ?_
    · exact h.contains_of_held (Nat.lt_of_lt_of_le hv (Edit.held_withoutSource_le hp pred v u))
    · exact ((SameShape.withoutSource f p (phi.source pred) pred).contains_value v).trans hv
  | removePhi hunheld => exact (WithoutPhi.of_drop hunheld).slotsLive h

/-- One call other than the removal of unreachable blocks keeps every slot live. -/
theorem run_slotsLive (hs : f.Sound) (h : f.SlotsLive) {c : Call} (hc : c ≠ .removeUnreachable) :
    (c.run f).SlotsLive := by
  obtain ⟨g, he, hinsts, hphis, hvalues⟩ := run_affects hs hc
  refine (he.slotsLive hs h).congr (fun v u => ?_) fun v hv => hvalues ▸ hv
  cases u <;> simp only [held_inst, held_phi, hinsts, hphis]

end Call

end Midend
