import Midend.Proofs.Promotion.Dissolve

namespace Midend

open Cell

/-- A stage in which nothing holds the cell any more, and in which every added phi has a source for
each reachable predecessor of its block. -/
structure Dissolved (f : Func) (cell : Cell) (joins : Joins) (h : Func) : Prop where
  stage : Stage f cell joins h
  unheld : ∀ u, h.held cell.value u = 0
  complete : ∀ p phi q, h.phis.get? p = some phi → f.phis.get? p = none → f.Reachable q →
    f.Edge q phi.block → (phi.source q).isSome = true

/-- Only the creation of the cell is left, for some choice of join values. -/
def Released (f : Func) (d : Dominance) (cell : Cell) (h : Func) : Prop :=
  ∃ joins, Promoting f d cell joins ∧ Dissolved f cell joins h ∧
    h.insts.contains cell.creation = true

variable {f g h : Func} {d : Dominance} {cell : Cell} {joins : Joins} {seen : InstId → Prop}
  {b : BlockId} {j k : Nat} {e : InstId × Inst} {v current : ValueId}

theorem Promoting.stage (hp : Promoting f d cell joins) : Stage f cell joins f where
  sound := hp.sound
  slots := hp.slots
  entry := rfl
  arguments := rfl
  limit := rfl
  dominance := rfl
  size := rfl
  block b := by
    cases hb : f.blocks.get? b with
    | none => rfl
    | some data =>
      refine congrArg some (List.filter_eq_self.2 fun i hi => ?_).symm
      obtain ⟨inst, hinst, -⟩ := hp.sound.linked.listed_inst b data i hb hi
      exact Option.isSome_iff_exists.2 ⟨inst, hinst⟩
  inst i inst hi := by
    refine ⟨inst, hi, rfl, fun k hk hreach => List.forall₂_same.2 fun v hv => ?_⟩
    exact .inl (.refl (hp.available_operand hreach hk hv))
  gone i inst hi hnone := by
    rw [hi] at hnone
    cases hnone
  phi p phi hphi := by
    refine .inl ⟨phi, hphi, rfl, fun q => ?_⟩
    cases hq : phi.source q with
    | none => exact .none
    | some v =>
      obtain ⟨data, hb, hmem⟩ := hp.sound.linked.phi_listed p phi hphi id
      exact .some fun hreach => .refl (hp.available_source (p := (p, phi)) hreach
        (Func.mem_phisOf.2 ⟨data, hb, hmem, hphi⟩) hq)
  kept p phi hphi := ⟨phi, hphi⟩
  value v val hv := .inl ⟨val, hv, rfl⟩
  stays v hv hnone := by
    rw [Arena.contains, hnone] at hv
    cases hv
  held _ := id

theorem Stage.unheld (hp : Promotable f d cell) (hs : Stage f cell joins h)
    (hall : ∀ i inst, f.insts.get? i = some inst → cell.value ∈ inst.operands →
      h.held cell.value (.inst i) = 0) (u : User) : h.held cell.value u = 0 := by
  cases u with
  | inst i =>
    cases hi : f.insts.get? i with
    | none => exact hs.held _ (by rw [Func.held_inst, hi]; rfl)
    | some inst =>
      by_cases hc : cell.value ∈ inst.operands
      · exact hall i inst hi hc
      · exact hs.held _ (by rw [Func.held_inst, hi]; exact List.count_eq_zero.2 hc)
  | phi p =>
    refine hs.held _ ?_
    rw [Func.held_phi]
    cases hphi : f.phis.get? p with
    | none => rfl
    | some phi =>
      refine List.count_eq_zero.2 fun hmem => ?_
      obtain ⟨q, hq⟩ := OrderedMap.mem_values.1 hmem
      exact hp.isIn.source p phi q hphi hq

theorem Promotable.creation_live (hp : Promotable f d cell) :
    f.insts.contains cell.creation = true := by
  obtain ⟨inst, hi, -⟩ := hp.isIn.creation
  exact Option.isSome_iff_exists.2 ⟨inst, hi⟩

theorem Cell.Cleared.extend {done rest : List InstId}
    (hsplit : ((f.instsOf b).map (·.1)).drop j = done ++ rest)
    (hcleared : Cleared f cell seen ⟨b, j⟩) :
    Cleared f cell (fun i => seen i ∨ i ∈ done) ⟨b, j + done.length⟩ := by
  intro c m e hm hc hbefore
  rcases hbefore with ⟨rfl, hle⟩ | hlt
  · rcases Nat.lt_or_ge m j with hmj | hjm
    · exact .inl (hcleared c m e hm hc (.inl ⟨rfl, hmj⟩))
    · have hget : (((f.instsOf c).map (·.1)).drop j)[m - j]? = some e.1 := by
        rw [List.getElem?_drop, Nat.add_sub_cancel' hjm, List.getElem?_map, hm]
        rfl
      have hle' : m + 1 ≤ j + done.length := hle
      rw [hsplit, List.getElem?_append_left (by omega)] at hget
      exact .inr (List.mem_of_getElem? hget)
  · exact .inl (hcleared c m e hm hc (.inr hlt))

/-- The carried value is taken through a block from the `j`-th instruction on. -/
theorem Dissolving.block_ensures (hp : Promoting f d cell joins)
    (hd : Dissolving f cell joins seen h) (hb : f.Reachable b)
    (hj : j ≤ (f.instsOf b).length) (hpending : ∀ i ∈ ((f.instsOf b).map (·.1)).drop j, ¬ seen i)
    (hcreation : cell.creation ∉ ((f.instsOf b).map (·.1)).drop j)
    (hv : Copies f cell joins ⟨b, j⟩ v) (hlast : Lasting f cell joins v)
    (hcleared : Cleared f cell seen ⟨b, j⟩) :
    ((((f.instsOf b).map (·.1)).drop j).foldlM (Edit.dissolveUse cell.value) v).Ensures h
      fun next g => Dissolving f cell joins (fun i => seen i ∨
          i ∈ ((f.instsOf b).map (·.1)).drop j) g ∧
        Copies f cell joins (.exit f b) next ∧ Lasting f cell joins next ∧ h.KeepsPhis g := by
  have hlen : j + (((f.instsOf b).map (·.1)).drop j).length = (f.instsOf b).length := by
    rw [List.length_drop, List.length_map]
    omega
  have hnodup : (((f.instsOf b).map (·.1)).drop j).Nodup :=
    (hp.sound.linked.instsOf_nodup b).sublist (List.drop_sublist _ _)
  -- After `done` the value carried is a copy of the content at the site behind `done`.
  refine (Edit.Ensures.foldlM (I := fun done next g =>
    Dissolving f cell joins (fun i => seen i ∨ i ∈ done) g ∧
      Copies f cell joins ⟨b, j + done.length⟩ next ∧ Lasting f cell joins next ∧
      h.KeepsPhis g) _ (fun done i rest hsplit next g hg => ?_)
    ⟨?_, hv, hlast, .refl h⟩).imp fun next g hg => ?_
  · obtain ⟨hd', hv', hlast', hphis⟩ := hg
    have hget : (((f.instsOf b).map (·.1)).drop j)[done.length]? = some i := by
      rw [hsplit, List.getElem?_append_right (Nat.le_refl _), Nat.sub_self]
      rfl
    rw [List.getElem?_drop, List.getElem?_map] at hget
    obtain ⟨e, he, rfl⟩ := Option.map_eq_some_iff.1 hget
    have hmem : e.1 ∈ ((f.instsOf b).map (·.1)).drop j := by simp [hsplit]
    have hfresh : ¬ (seen e.1 ∨ e.1 ∈ done) := by
      rintro (hs | hin)
      · exact hpending _ hmem hs
      · exact notMem_done hnodup hsplit hin
    have hne : e.1 ≠ cell.creation := fun heq => hcreation (heq ▸ hmem)
    refine (hd'.dissolveUse_ensures hp he hb hfresh hne hv' hlast'
      fun _ => hcleared.extend hsplit).imp fun next' g' hg' => ?_
    obtain ⟨hd'', hv'', hlast'', hphis'⟩ := hg'
    refine ⟨?_, ?_, hlast'', hphis.trans hphis'⟩
    · exact hd''.congr fun i => by simp [or_assoc]
    · rw [List.length_append, List.length_singleton, ← Nat.add_assoc]
      exact hv''
  · exact hd.congr fun i => by simp
  · rw [hlen] at hg
    exact hg

theorem Dissolving.insts_eq (hp : Promoting f d cell joins) (hd : Dissolving f cell joins seen h)
    (hb : f.hasBlock b = true) (hpending : ∀ i ∈ (f.instsOf b).map (·.1), ¬ seen i) :
    ∃ data, h.blocks.get? b = some data ∧ data.insts = (f.instsOf b).map (·.1) := by
  obtain ⟨data, hdata⟩ := Func.hasBlock_iff.1 hb
  have hlist := hd.stage.block b
  rw [hdata] at hlist
  obtain ⟨data', hdata', hinsts⟩ := Option.map_eq_some_iff.1 hlist
  rw [hp.sound.linked.map_fst_instsOf hdata] at hpending ⊢
  refine ⟨data', hdata', hinsts.trans (List.filter_eq_self.2 fun i hi => ?_)⟩
  obtain ⟨inst, hinst, -⟩ := hp.sound.linked.listed_inst b data i hdata hi
  exact hd.pending i (Option.isSome_iff_exists.2 ⟨inst, hinst⟩) (hpending i hi)

theorem instsAfter_creation (hp : Promoting f d cell joins) {data : Block} {inst : Inst}
    (hb : h.blocks.get? cell.home = some data)
    (hinsts : data.insts = (f.instsOf cell.home).map (·.1))
    (hj : (f.instsOf cell.home)[j]? = some (cell.creation, inst)) :
    h.instsAfter cell.home (some cell.creation) =
      .ok (((f.instsOf cell.home).map (·.1)).drop (j + 1)) := by
  have hget : ((f.instsOf cell.home).map (·.1))[j]? = some cell.creation := by
    rw [List.getElem?_map, hj]
    rfl
  have hpos : data.position cell.creation = some j := by
    rw [Block.position, hinsts, List.idxOf?_eq_some_iff]
    obtain ⟨hlt, hval⟩ := List.getElem?_eq_some_iff.1 hget
    refine ⟨hlt, hval, fun k hk heq => ?_⟩
    have hnodup := hp.sound.linked.instsOf_nodup cell.home
    have := (List.Nodup.getElem_inj_iff hnodup).1 (heq.trans hval.symm)
    omega
  refine bind_eq_ok.2 ⟨data, Func.block_eq_ok.2 hb, ?_⟩
  simp only [hpos, hinsts]
  rfl

theorem Promotable.exists_store (hp : Promotable f d cell) (he : e ∈ f.instsOf b)
    (hop : e.2.opcode = .setRef) (hc : cell.value ∈ e.2.operands) :
    ∃ u ∈ cell.uses, u.inst = e.1 ∧ u.isStore = true := by
  obtain ⟨-, -, -, hi⟩ := Func.mem_instsOf.1 he
  obtain ⟨u, hu, huse⟩ := hp.isIn.listed _ _ hi hc
  obtain ⟨inst, hi', -, -, hfits⟩ := hp.isIn.use u hu
  rw [huse, hi] at hi'
  obtain rfl := Option.some.inj hi'
  refine ⟨u, hu, huse, ?_⟩
  cases u with
  | load i => exact absurd hfits.1 (by simp [hop])
  | store i => rfl
  | capture i =>
    obtain ⟨proto, hclosure⟩ := hfits
    simp [hop] at hclosure

/-- A cell that is stored to in the block of its creation only needs no joins. -/
theorem Promotable.without_joins (hp : Promotable f d cell)
    (hstores : ∀ y, ∀ e ∈ f.instsOf y, e.2.opcode = .setRef → cell.value ∈ e.2.operands →
      y = cell.home) : Promoting f d cell fun _ => none where
  toPromotable := hp
  join_fresh b v hj := by cases hj
  join_unique b c v hj := by cases hj
  join_below b v hj := by cases hj
  join_closed y q b hy _ _ hnot hbelow := by
    rcases hy with ⟨e, he, hop, hc⟩ | ⟨v, hj⟩
    · exact absurd (hstores y e he hop hc ▸ hbelow) hnot
    · cases hj

/-- A fresh join value at every block below the creation. -/
def allJoins (f : Func) (d : Dominance) (cell : Cell) : Joins := fun b =>
  if d.strictlyDominates cell.home b then some ⟨f.values.size + b.index⟩ else none

theorem allJoins_eq_some (hp : Promotable f d cell) :
    allJoins f d cell b = some v ↔
      f.StrictlyDominates cell.home b ∧ v = ⟨f.values.size + b.index⟩ := by
  unfold allJoins
  rw [← hp.verified.dominance.strictlyDominates_iff]
  split <;> simp [*, eq_comm]

theorem Promotable.with_joins (hp : Promotable f d cell) :
    Promoting f d cell (allJoins f d cell) where
  toPromotable := hp
  join_fresh b v hj := by
    obtain ⟨-, rfl⟩ := (allJoins_eq_some hp).1 hj
    exact Arena.get?_eq_none_of_size_le (Nat.le_add_right _ _)
  join_unique b c v hb hc := by
    obtain ⟨-, rfl⟩ := (allJoins_eq_some hp).1 hb
    obtain ⟨-, heq⟩ := (allJoins_eq_some hp).1 hc
    exact Handle.ext (Nat.add_left_cancel (congrArg Handle.index heq))
  join_below b v hj := ((allJoins_eq_some hp).1 hj).1
  join_closed y q b _ _ _ _ hbelow := ⟨_, (allJoins_eq_some hp).2 ⟨hbelow, rfl⟩⟩

theorem Promoting.dissolving (hp : Promoting f d cell joins) (hnone : ∀ b, joins b = none) :
    Dissolving f cell joins (fun _ => False) f where
  stage := hp.stage
  freed _ := False.elim
  pending _ hi _ := hi
  joined b v hj := by
    rw [hnone b] at hj
    cases hj

theorem Dissolving.released (hp : Promoting f d cell joins) (hnone : ∀ b, joins b = none)
    (hd : Dissolving f cell joins seen h) (hcreation : ¬ seen cell.creation)
    (hall : ∀ i inst, f.insts.get? i = some inst → cell.value ∈ inst.operands → seen i) :
    Released f d cell h := by
  have hunheld := hd.stage.unheld hp.toPromotable fun i inst hi hc =>
    hd.freed i (hall i inst hi hc)
  refine ⟨joins, hp, ⟨hd.stage, hunheld, fun p phi q hphi hnew _ _ => ?_⟩,
    hd.pending _ hp.creation_live hcreation⟩
  rcases hd.stage.phi p phi hphi with ⟨old, hold, -⟩ | ⟨-, hjoin, -⟩
  · rw [hnew] at hold
    cases hold
  · rw [hnone] at hjoin
    cases hjoin

theorem Promotable.use_ne_creation (hp : Promotable f d cell) {u : CellUse} (hu : u ∈ cell.uses) :
    u.inst ≠ cell.creation := by
  intro heq
  obtain ⟨inst, hi, hop, -⟩ := hp.isIn.creation
  obtain ⟨inst', hi', -, -, hfits⟩ := hp.isIn.use u hu
  rw [heq, hi] at hi'
  obtain rfl := Option.some.inj hi'
  cases u <;> simp [CellUse.Fits, hop] at hfits

theorem Promotable.unused (hp : Promotable f d cell) (hnone : cell.uses = []) :
    Released f d cell f := by
  have hp' : Promoting f d cell fun _ => none := by
    refine hp.without_joins fun y e he hop hc => ?_
    obtain ⟨u, hu, -⟩ := hp.exists_store he hop hc
    rw [hnone] at hu
    cases hu
  refine (hp'.dissolving fun _ => rfl).released hp' (fun _ => rfl) id fun i inst hi hc => ?_
  obtain ⟨u, hu, -⟩ := hp.isIn.listed i inst hi hc
  rw [hnone] at hu
  cases hu

theorem Promoting.lasting_initial (hp : Promoting f d cell joins) :
    Lasting f cell joins cell.initial := by
  obtain ⟨j, inst, hj, hop, hres, hhead⟩ := hp.creation_place
  obtain ⟨-, -, -, hi⟩ := Func.mem_instsOf.1 (List.mem_of_getElem? hj)
  have hmem : cell.initial ∈ inst.operands := List.mem_of_mem_head? hhead
  have hav := hp.available_operand hp.home_reachable hj hmem
  refine .inl ⟨hp.slots.operand _ _ _ hi hmem, fun i inst' hi' hr hdis => ?_⟩
  obtain ⟨k, hk⟩ := hp.sound.linked.exists_getElem?_instsOf hi'
  have hbefore := hav _ (.inst hk hr)
  rcases hdis with rfl | ⟨hc, -⟩
  · obtain rfl := Option.some.inj (hi.symm.trans hi')
    have hblock : inst.block = cell.home :=
      hp.sound.linked.block_of_instsOf (List.mem_of_getElem? hj)
    rw [hblock] at hk hbefore
    obtain rfl := hp.sound.linked.place_unique hj hk rfl
    exact Site.Before.not_succ_self hbefore
  · have hcell := (hp.available_cell_iff hj).1 (hp.available_user hk hc).2
    exact Site.Before.not_succ_self (hbefore.trans (before_succ.trans hcell))

/-- Without joins and stores the cell holds its initial value for good. -/
theorem Cell.Holds.eq_initial {t : Site} (hh : Holds f d cell (fun _ => none) t v)
    (hstores : ∀ b, ∀ e ∈ f.instsOf b, ∀ w, ¬ cell.Stores e.2 w) : v = cell.initial := by
  induction hh with
  | created => rfl
  | join hj => cases hj
  | descend _ _ _ ih => exact ih
  | store _ hk hw => exact absurd hw (hstores _ _ (List.mem_of_getElem? hk) _)
  | keep _ _ _ _ ih => exact ih

/-- A cell without stores: every use takes the initial value. -/
theorem Promotable.readOnly_ensures (hp : Promotable f d cell)
    (hloads : ∀ u ∈ cell.uses, u.isStore = false) :
    (cell.uses.forM fun u => discard (Edit.dissolveUse cell.value cell.initial u.inst)).Ensures f
      fun _ g => Released f d cell g := by
  have hnostore : ∀ b, ∀ e ∈ f.instsOf b, e.2.opcode = .setRef → cell.value ∉ e.2.operands := by
    intro b e he hop hc
    obtain ⟨u, hu, -, hstore⟩ := hp.exists_store he hop hc
    rw [hloads u hu] at hstore
    cases hstore
  have hp' : Promoting f d cell fun _ => none :=
    hp.without_joins fun y e he hop hc => absurd hc (hnostore y e he hop)
  have hquiet : ∀ b, ∀ e ∈ f.instsOf b, ∀ w, ¬ cell.Stores e.2 w := fun b e he w hw =>
    hnostore b e he hw.1 (List.mem_of_mem_head? hw.2.1)
  refine (Edit.Ensures.forM (I := fun done g =>
    Dissolving f cell (fun _ => none) (· ∈ done.map CellUse.inst) g) cell.uses
    (fun done u rest hsplit g hg => .discard ?_) ?_).imp fun _ g hg => ?_
  · have hu : u ∈ cell.uses := by simp [hsplit]
    obtain ⟨inst, hi, hreach, hc, -⟩ := hp.isIn.use u hu
    obtain ⟨k, hk⟩ := hp.sound.linked.exists_getElem?_instsOf hi
    have hfresh : u.inst ∉ done.map CellUse.inst :=
      notMem_done hp.isIn.distinct (by rw [hsplit, List.map_append]; rfl)
    -- Without stores the content is the initial value wherever there is a use.
    have hcopies : Copies f cell (fun _ => none) ⟨inst.block, k⟩ cell.initial := by
      obtain ⟨v, hv⟩ := hp'.exists_holds (hp'.available_user hk hc).2
        (Nat.le_of_lt (List.getElem?_eq_some_iff.1 hk).1)
      exact hv.eq_initial hquiet ▸ hp'.copies_of_holds hv
    refine (hg.dissolveUse_ensures hp' hk (hp.verified.dominance.isReachable_iff.1 hreach) hfresh
      (hp.use_ne_creation hu) hcopies hp'.lasting_initial
      fun hop => absurd hc (hnostore _ _ (List.mem_of_getElem? hk) hop)).imp fun _ g' hg' => ?_
    exact hg'.1.congr fun i => by simp
  · exact (hp'.dissolving fun _ => rfl).congr fun i => by simp
  · refine hg.released hp' (fun _ => rfl) (fun hin => ?_) fun i inst hi hc => ?_
    · obtain ⟨u, hu, heq⟩ := List.mem_map.1 hin
      exact hp.use_ne_creation hu heq
    · obtain ⟨u, hu, heq⟩ := hp.isIn.listed i inst hi hc
      exact List.mem_map.2 ⟨u, hu, heq⟩

/-- A cell without loads and captures: its stores go. -/
theorem Promotable.writeOnly_ensures (hp : Promotable f d cell)
    (hstores : ∀ u ∈ cell.uses, u.isStore = true) :
    (cell.uses.forM fun u => Edit.removeInst u.inst).Ensures f
      fun _ g => Released f d cell g := by
  -- Nothing reads the content, so any joins will do; with one at every block they are closed.
  have hp' := hp.with_joins
  refine (Edit.Ensures.forM (I := fun done g => Stage f cell (allJoins f d cell) g ∧
    g.phis = f.phis ∧ ∀ i, f.insts.contains i = true →
      g.insts.contains i = !(done.map CellUse.inst).contains i) cell.uses
    (fun done u rest hsplit g hg => ?_) ⟨hp'.stage, rfl, fun i hi => by simpa using hi⟩).imp
    fun _ g hg => ?_
  · obtain ⟨hstage, hphis, hlive⟩ := hg
    have hu : u ∈ cell.uses := by simp [hsplit]
    obtain ⟨inst, hi, -, hc, hfits⟩ := hp.isIn.use u hu
    have hfresh : u.inst ∉ done.map CellUse.inst :=
      notMem_done hp.isIn.distinct (by rw [hsplit, List.map_append]; rfl)
    have hop : inst.opcode = .setRef := by
      cases u with
      | store i => exact hfits.1
      | load i => exact absurd (hstores _ hu) (by simp [CellUse.isStore])
      | capture i => exact absurd (hstores _ hu) (by simp [CellUse.isStore])
    have hresult := (hp.formed _ _ hi).result
    rw [hop] at hresult
    refine (hstage.removeInst_ensures hp hi ?_ (.inr ⟨hc, .inr hop⟩) fun v w hv => ?_).imp ?_
    · rw [hlive _ (Option.isSome_iff_exists.2 ⟨inst, hi⟩)]
      simpa using hfresh
    · rw [hv] at hresult
      cases hresult
    · rintro _ g' ⟨hstage', -, hinsts, hphis'⟩
      refine ⟨hstage', hphis'.trans hphis, fun i hi => ?_⟩
      rw [hinsts, Arena.contains_erase, hlive i hi, List.map_append]
      by_cases hiu : i = u.inst <;> simp [hiu]
  · obtain ⟨hstage, hphis, hlive⟩ := hg
    refine ⟨_, hp', ⟨hstage, hstage.unheld hp fun i inst hi hc => ?_,
      fun p phi q hphi hnew => ?_⟩, ?_⟩
    · obtain ⟨u, hu, heq⟩ := hp.isIn.listed i inst hi hc
      have hgone := hlive i (Option.isSome_iff_exists.2 ⟨inst, hi⟩)
      rw [List.contains_iff_mem.2 (List.mem_map.2 ⟨u, hu, heq⟩)] at hgone
      have hnone : g.insts.get? i = none := by simpa [Arena.contains] using hgone
      rw [Func.held_inst, hnone]
      rfl
    · rw [hphis, hnew] at hphi
      cases hphi
    · rw [hlive _ hp.creation_live]
      simpa using fun u hu => hp.use_ne_creation hu

theorem Promoting.cleared_creation (hp : Promoting f d cell joins) {inst : Inst}
    (hj : (f.instsOf cell.home)[j]? = some (cell.creation, inst)) (seen : InstId → Prop) :
    Cleared f cell seen ⟨cell.home, j + 1⟩ := by
  intro c m e hm hc hbefore
  -- An instruction that holds the cell comes after the creation.
  have hcell := (hp.available_cell_iff hj).1 (hp.available_user hm hc).2
  exact absurd (hbefore.trans hcell) Site.Before.not_succ_self

theorem Promoting.creation_notMem (hp : Promoting f d cell joins) {inst : Inst}
    (hj : (f.instsOf cell.home)[j]? = some (cell.creation, inst)) :
    cell.creation ∉ ((f.instsOf cell.home).map (·.1)).drop (j + 1) := by
  intro hin
  obtain ⟨m, hm⟩ := List.getElem?_of_mem hin
  rw [List.getElem?_drop, List.getElem?_map] at hm
  obtain ⟨e, he, heq⟩ := Option.map_eq_some_iff.1 hm
  have := hp.sound.linked.place_unique hj he heq.symm
  omega

/-- A cell that is used in the block of its creation only. -/
theorem Promotable.inBlock_ensures (hp : Promotable f d cell)
    (hhome : ∀ i inst, f.insts.get? i = some inst → cell.value ∈ inst.operands →
      inst.block = cell.home) :
    (do
      let insts ← Edit.query (·.instsAfter cell.home (some cell.creation))
      discard (insts.foldlM (Edit.dissolveUse cell.value) cell.initial)
      return Promotion.inBlock : Edit Promotion).Ensures f fun _ g => Released f d cell g := by
  have hp' : Promoting f d cell fun _ => none := by
    refine hp.without_joins fun y e he hop hc => ?_
    obtain ⟨-, -, -, hi⟩ := Func.mem_instsOf.1 he
    rw [← hp.sound.linked.block_of_instsOf he]
    exact hhome _ _ hi hc
  have hd := hp'.dissolving fun _ => rfl
  obtain ⟨j, inst, hj, -⟩ := hp'.creation_place
  have hlive : f.hasBlock cell.home = true :=
    Func.hasBlock_iff.2 (hp.sound.linked.live_of_isReachable hp.verified.dominance
      hp.isIn.home_reachable)
  obtain ⟨data, hb, hinsts⟩ := hd.insts_eq hp' hlive fun _ _ => id
  refine .query_bind (instsAfter_creation hp' hb hinsts hj)
    (.bind (.discard ?_) fun _ _ hg => .pure hg)
  refine (hd.block_ensures hp' hp'.home_reachable (List.getElem?_eq_some_iff.1 hj).1
    (fun _ _ => id) (hp'.creation_notMem hj) (hp'.copies_of_holds (.created hj))
    hp'.lasting_initial (hp'.cleared_creation hj _)).imp fun _ g hg => ?_
  refine hg.1.released hp' (fun _ => rfl) ?_ fun i inst' hi hc => .inr ?_
  · rintro (hno | hin)
    · exact hno
    · exact hp'.creation_notMem hj hin
  · obtain ⟨m, hm⟩ := hp.sound.linked.exists_getElem?_instsOf hi
    have hblock := hhome i inst' hi hc
    have hcell := (hp'.available_cell_iff hj).1 (hp'.available_user hm hc).2
    rw [hblock] at hm hcell
    have hle : j + 1 ≤ m := hcell.le_done rfl
    have hget : (((f.instsOf cell.home).map (·.1)).drop (j + 1))[m - (j + 1)]? = some i := by
      rw [List.getElem?_drop, Nat.add_sub_cancel' hle, List.getElem?_map, hm]
      rfl
    exact List.mem_of_getElem? hget

end Midend
