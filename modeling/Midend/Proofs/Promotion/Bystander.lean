import Midend.Proofs.Promotion.Direct
import Midend.Proofs.Promotion.Walk

/-!
Other cells while one is promoted. If nothing that goes with the cell holds or yields the value of
another one, then that value is held where it was held before and nowhere else: no load yields it, no
store or creation passes it on, and a phi that is added takes it from no side.
-/

namespace Midend

open Cell Work

/-- The instruction holds the value or yields it. -/
def Inst.Involves (inst : Inst) (a : ValueId) : Prop := a ∈ inst.operands ∨ inst.result = some a

/-- `g` has left all that involves `a` in its place, and uses it nowhere else. -/
structure Func.KeepsUses (a : ValueId) (f g : Func) : Prop where
  inst : ∀ i inst', g.insts.get? i = some inst' → ∃ inst, f.insts.get? i = some inst ∧
    inst'.shape = inst.shape ∧
    ∀ n : Nat, inst'.operands[n]? = some a ↔ inst.operands[n]? = some a
  kept : ∀ i inst, f.insts.get? i = some inst → inst.Involves a → g.insts.contains i = true
  phi : ∀ p, g.held a (.phi p) = f.held a (.phi p)

/-- `a` is the result of an instruction, and nothing that goes with the cell involves it. -/
structure Cell.Bystander (f : Func) (cell : Cell) (a : ValueId) : Prop where
  made : ∃ i inst, f.insts.get? i = some inst ∧ inst.result = some a
  apart : ∀ i inst, f.insts.get? i = some inst → cell.Dissolves i inst → ¬ inst.Involves a

/-- A function on the way: it uses `a` as `f` does, and holds the cell nowhere but where `f` does. -/
structure Cell.Passing (f : Func) (cell : Cell) (a : ValueId) (h : Func) : Prop where
  sound : h.Sound
  uses : f.KeepsUses a h
  cell_slot : ∀ i inst inst', f.insts.get? i = some inst → h.insts.get? i = some inst' →
    ∀ n : Nat, inst'.operands[n]? = some cell.value → inst.operands[n]? = some cell.value
  creation : h.insts.contains cell.creation = true

variable {f g h : Func} {d : Dominance} {cell : Cell} {a v w : ValueId} {i : InstId}

namespace Func.KeepsUses

theorem refl (a : ValueId) (f : Func) : f.KeepsUses a f where
  inst _ inst hi := ⟨inst, hi, rfl, fun _ => .rfl⟩
  kept _ inst hi _ := Option.isSome_iff_exists.2 ⟨inst, hi⟩
  phi _ := rfl

theorem erase (hk : f.KeepsUses a h)
    (hno : ∀ inst, f.insts.get? i = some inst → ¬ inst.Involves a)
    (hinsts : g.insts = h.insts.erase i) (hphis : g.phis = h.phis) : f.KeepsUses a g where
  inst j inst' hj := by
    rw [hinsts, Arena.get?_erase] at hj
    split at hj
    · cases hj
    · exact hk.inst j inst' hj
  kept j inst hj ha := by
    rw [Arena.contains, hinsts, Arena.get?_erase, if_neg]
    · exact hk.kept j inst hj ha
    · rintro rfl
      exact hno inst hj ha
  phi p := by
    rw [held_phi, hphis, ← held_phi]
    exact hk.phi p

end Func.KeepsUses

namespace Cell.Bystander

theorem ne_cell (hb : cell.Bystander f a) (hc : cell.IsIn f d) : a ≠ cell.value := by
  rintro rfl
  obtain ⟨inst, hi, -, hres, -⟩ := hc.creation
  exact hb.apart _ inst hi (.inl rfl) (.inr hres)

theorem ne_initial (hb : cell.Bystander f a) (hc : cell.IsIn f d) : cell.initial ≠ a := by
  rintro rfl
  obtain ⟨inst, hi, -, -, hhead, -⟩ := hc.creation
  exact hb.apart _ inst hi (.inl rfl) (.inl (List.mem_of_mem_head? hhead))

end Cell.Bystander

/-- A value that is neither the cell nor its bystander. -/
structure Cell.Neutral (cell : Cell) (a v : ValueId) : Prop where
  ne_bystander : v ≠ a
  ne_cell : v ≠ cell.value

namespace Cell.Passing

theorem refl (hp : Promotable f d cell) (a : ValueId) : cell.Passing f a f where
  sound := hp.sound
  uses := .refl a f
  cell_slot i inst inst' hi hi' n hn := by rwa [Option.some.inj (hi.symm.trans hi')]
  creation := hp.creation_live

theorem of_shape (hs : cell.Passing f a h) (hshape : h.SameShape g) (hsound : g.Sound)
    (hslots : ∀ i x y, h.insts.get? i = some x → g.insts.get? i = some y → ∀ n : Nat,
      (y.operands[n]? = some a ↔ x.operands[n]? = some a) ∧
        (y.operands[n]? = some cell.value → x.operands[n]? = some cell.value))
    (hphi : ∀ p, g.held a (.phi p) = h.held a (.phi p)) : cell.Passing f a g where
  sound := hsound
  uses := by
    refine ⟨fun i y hy => ?_, fun i inst hi ha => ?_, fun p => (hphi p).trans (hs.uses.phi p)⟩
    · have hsame := hshape.inst i
      rw [hy] at hsame
      obtain ⟨x, hx, hxy⟩ := Option.map_eq_some_iff.1 hsame.symm
      obtain ⟨inst, hi, hshape', hslots'⟩ := hs.uses.inst i x hx
      exact ⟨inst, hi, hxy.symm.trans hshape', fun n => ((hslots i x y hx hy n).1).trans (hslots' n)⟩
    · rw [hshape.contains_inst]
      exact hs.uses.kept i inst hi ha
  cell_slot i inst y hi hy n hn := by
    obtain ⟨x, hx⟩ := Option.isSome_iff_exists.1
      ((hshape.contains_inst i).symm.trans (Option.isSome_iff_exists.2 ⟨y, hy⟩))
    exact hs.cell_slot i inst x hi hx n ((hslots i x y hx hy n).2 hn)
  creation := (hshape.contains_inst _).trans hs.creation

end Cell.Passing

namespace Cell.Passing

section Edits

variable (hs : cell.Passing f a h)
include hs

theorem replaceAllUses_ends (hold : v ≠ a) (hnew : cell.Neutral a w) :
    Ends True (Edit.replaceAllUses v w) h fun _ g => cell.Passing f a g := by
  refine (Edit.replaceAllUses_yields hs.sound.uses v w).ends
    (Edit.replaceAllUses_sound hs.sound v w) ?_
  rintro _ g hsound ⟨-, hr⟩
  have hswap : ∀ o, (Func.swap v w o = a ↔ o = a) ∧
      (Func.swap v w o = cell.value → o = cell.value) := by
    intro o
    unfold Func.swap
    split
    · rename_i heq
      refine ⟨iff_of_false hnew.ne_bystander (heq ▸ hold), fun hc => absurd hc hnew.ne_cell⟩
    · exact ⟨.rfl, id⟩
  refine hs.of_shape hr.shape hsound (fun i x y hx hy n => ?_)
    fun p => hr.held_of_ne hold.symm hnew.ne_bystander.symm _
  rw [hr.insts, hx] at hy
  obtain rfl := Option.some.inj hy
  show ((x.operands.map _)[n]? = _ ↔ _) ∧ ((x.operands.map _)[n]? = _ → _)
  rw [List.getElem?_map]
  cases x.operands[n]? with
  | none => simp
  | some o => simpa using hswap o

theorem setOperand_ends (hv : cell.Neutral a v) {index : Nat}
    (hslot : ∀ inst, f.insts.get? i = some inst → inst.operands[index]? ≠ some a) :
    Ends True (Edit.setOperand i index v) h fun _ g => cell.Passing f a g := by
  refine (Edit.setOperand_yields h i index v).ends (Edit.setOperand_sound hs.sound i index v) ?_
  rintro _ g hsound ⟨val, data, old, -, hdata, hold, hg⟩
  have hne : old ≠ a := by
    rintro rfl
    obtain ⟨inst, hi, -, hslots⟩ := hs.uses.inst i data hdata
    exact hslot inst hi ((hslots index).1 hold)
  split at hg
  · exact hg ▸ hs
  subst hg
  have hinsts : ∀ j, (h.withOperand i index old v).insts.get? j = if j = i then
      (h.insts.get? j).map fun d => { d with operands := d.operands.set index v }
      else h.insts.get? j := by
    intro j
    rw [Func.withOperand, Func.moveUse_insts, Arena.get?_modify]
  refine hs.of_shape (.withOperand _ _ _ _ _) hsound (fun j x y hx hy n => ?_) fun p => ?_
  · rw [hinsts, hx] at hy
    split at hy
    · subst j
      obtain rfl := Option.some.inj hy
      obtain rfl := Option.some.inj (hdata.symm.trans hx)
      show ((data.operands.set index v)[n]? = _ ↔ _) ∧ ((data.operands.set index v)[n]? = _ → _)
      by_cases hn : index = n
      · subst hn
        have hlt := (List.getElem?_eq_some_iff.1 hold).1
        rw [List.getElem?_set_self hlt, hold]
        simp [hne, hv.ne_bystander, hv.ne_cell]
      · rw [List.getElem?_set_ne hn]
        exact ⟨.rfl, id⟩
    · obtain rfl := Option.some.inj hy
      exact ⟨.rfl, id⟩
  · rw [Func.held_phi, Func.held_phi, Func.withOperand, Func.moveUse_phis]

theorem removeInst_ends
    (hgo : ∀ inst, f.insts.get? i = some inst → ¬ inst.Involves a ∧ inst.isTerminator = false) :
    Ends True (Edit.removeInst i) h fun _ g =>
      g.Sound ∧ f.KeepsUses a g ∧ g.insts = h.insts.erase i := by
  refine (Edit.removeInst_yields h i fun data v hi hv =>
    hs.sound.linked.inst_result i data v hi hv).ends (Edit.removeInst_sound hs.sound i) ?_
  rintro _ g hsound ⟨data, hdata, -, hg⟩
  obtain ⟨inst, hi, hshape, -⟩ := hs.uses.inst i data hdata
  obtain ⟨hop, -⟩ := Inst.mk.inj hshape
  have hterm : data.isTerminator = false := by
    rw [Inst.isTerminator, hop]
    exact (hgo inst hi).2
  rw [hterm, if_neg Bool.false_ne_true] at hg
  have hinsts : g.insts = h.insts.erase i := by
    rw [hg]
    simp [Func.unlistInst]
  have hphis : g.phis = h.phis := by
    rw [hg]
    simp [Func.unlistInst]
  exact ⟨hsound, hs.uses.erase (fun inst hi => (hgo inst hi).1) hinsts hphis, hinsts⟩

theorem removeAccess_ends (hp : Promotable f d cell) (hb : cell.Bystander f a)
    (hacc : ∀ inst, f.insts.get? i = some inst → cell.value ∈ inst.operands ∧
      (inst.opcode = .getRef ∨ inst.opcode = .setRef)) :
    Ends True (Edit.removeInst i) h fun _ g => cell.Passing f a g := by
  have hne : i ≠ cell.creation := by
    rintro rfl
    obtain ⟨inst, hi, hop, -⟩ := hp.isIn.creation
    rcases (hacc inst hi).2 with hop' | hop' <;> simp [hop] at hop'
  refine (hs.removeInst_ends fun inst hi => ⟨hb.apart i inst hi (.inr (hacc inst hi)), ?_⟩).imp ?_
  · rcases (hacc inst hi).2 with hop | hop <;> simp [Inst.isTerminator, hop, Opcode.isTerminator]
  · rintro _ g ⟨hsound, huses, hinsts⟩
    refine ⟨hsound, huses, fun j inst inst' hj hj' => ?_, ?_⟩
    · rw [hinsts, Arena.get?_erase] at hj'
      split at hj'
      · cases hj'
      · exact hs.cell_slot j inst inst' hj hj'
    · rw [Arena.contains, hinsts, Arena.get?_erase, if_neg hne.symm]
      exact hs.creation

/-- A phi yields neither the cell nor the bystander: both are results of instructions. -/
theorem neutral_phi (hp : Promotable f d cell) (hb : cell.Bystander f a) {p : PhiId} {phi : Phi}
    (hphi : h.phis.get? p = some phi) : cell.Neutral a phi.result := by
  obtain ⟨val, hval, hdef⟩ := hs.sound.linked.phi_result p phi hphi
  have hmade : ∀ i inst, f.insts.get? i = some inst → h.insts.contains i = true →
      inst.result ≠ some phi.result := by
    intro i inst hi hlive hres
    obtain ⟨inst', hi'⟩ := Option.isSome_iff_exists.1 hlive
    obtain ⟨inst₀, hi₀, hshape, -⟩ := hs.uses.inst i inst' hi'
    obtain rfl := Option.some.inj (hi.symm.trans hi₀)
    obtain ⟨-, -, hres', -⟩ := Inst.mk.inj hshape
    obtain ⟨val', hval', hdef'⟩ := hs.sound.linked.inst_result i inst' _ hi' (hres'.trans hres)
    rw [Option.some.inj (hval.symm.trans hval'), hdef'] at hdef
    cases hdef
  refine ⟨fun heq => ?_, fun heq => ?_⟩
  · obtain ⟨i, inst, hi, hres⟩ := hb.made
    exact hmade i inst hi (hs.uses.kept i inst hi (.inr hres)) (heq ▸ hres)
  · obtain ⟨inst, hi, -, hres, -⟩ := hp.isIn.creation
    exact hmade _ inst hi hs.creation (heq ▸ hres)

theorem addPhi_ends (b : BlockId) : Ends True (Edit.addPhi b) h fun p g =>
    cell.Passing f a g ∧ f.held a (.phi p) = 0 := by
  refine (Edit.addPhi_yields h b).ends (Edit.addPhi_sound hs.sound b) ?_
  rintro _ g hsound ⟨data, -, rfl, rfl⟩
  refine ⟨⟨hsound, ⟨hs.uses.inst, hs.uses.kept, fun p => ?_⟩, hs.cell_slot, hs.creation⟩, ?_⟩
  · rw [Func.held_withPhi]
    exact hs.uses.phi p
  · rw [← hs.uses.phi, Func.held_phi, Arena.get?_next]
    rfl

variable {p : PhiId} (hp : f.held a (.phi p) = 0)
include hp

theorem setPhiSource_ends (pred : BlockId) (hv : cell.Neutral a v) :
    Ends True (Edit.setPhiSource p pred v) h fun _ g => cell.Passing f a g := by
  refine (Edit.setPhiSource_yields h p pred v).ends (Edit.setPhiSource_sound hs.sound p pred v) ?_
  rintro _ g hsound ⟨val, data, phi, -, -, hphi, rfl⟩
  refine hs.of_shape (.withSource _ _ _ _ _) hsound (fun i x y hx hy n => ?_) fun q => ?_
  · rw [Func.withSource, Func.moveUse_insts, hx] at hy
    obtain rfl := Option.some.inj hy
    exact ⟨.rfl, id⟩
  · by_cases hq : q = p
    · subst hq
      have hle := Func.held_withSource_le hphi pred v a (.phi q)
      have hzero := (hs.uses.phi q).trans hp
      rw [if_neg hv.ne_bystander] at hle
      omega
    · rw [Func.held_phi, Func.held_phi, Func.withSource, Func.moveUse_phis, Arena.get?_modify,
        if_neg hq]

theorem removePhiSource_ends (pred : BlockId) :
    Ends True (Edit.removePhiSource p pred) h fun _ g => cell.Passing f a g := by
  refine (Edit.removePhiSource_yields h p pred).ends
    (Edit.removePhiSource_sound hs.sound p pred) ?_
  rintro _ g hsound ⟨phi, hphi, -, rfl⟩
  refine hs.of_shape (.withoutSource _ _ _ _) hsound (fun i x y hx hy n => ?_) fun q => ?_
  · rw [Func.withoutSource, Func.moveUse_insts, hx] at hy
    obtain rfl := Option.some.inj hy
    exact ⟨.rfl, id⟩
  · by_cases hq : q = p
    · subst hq
      have hle := Edit.held_withoutSource_le hphi pred a (.phi q)
      have hzero := (hs.uses.phi q).trans hp
      omega
    · rw [Func.held_phi, Func.held_phi, Func.withoutSource, Func.moveUse_phis, Arena.get?_modify,
        if_neg hq]

theorem removePhi_ends : Ends True (Edit.removePhi p) h fun _ g => cell.Passing f a g := by
  refine (Edit.removePhi_yields h p fun data hp => hs.sound.linked.phi_result p data hp).ends
    (Edit.removePhi_sound hs.sound p) ?_
  rintro _ g hsound ⟨data, val, -, -, -, rfl⟩
  have hinsts : ((h.unlistPhi data.block p).dropPhi p data).insts = h.insts := by
    simp [Func.unlistPhi]
  have hphis : ((h.unlistPhi data.block p).dropPhi p data).phis = h.phis.erase p := by
    simp [Func.unlistPhi]
  refine ⟨hsound, ⟨?_, ?_, fun q => ?_⟩, ?_, ?_⟩
  · rw [hinsts]
    exact hs.uses.inst
  · rw [hinsts]
    exact hs.uses.kept
  · rw [Func.held_phi, hphis, Arena.get?_erase]
    split
    · subst q
      exact hp.symm
    · rw [← Func.held_phi]
      exact hs.uses.phi q
  · rw [hinsts]
    exact hs.cell_slot
  · rw [hinsts]
    exact hs.creation

end Edits

section Walk

variable (hp : Promotable f d cell) (hb : cell.Bystander f a)
include hp hb

theorem access (hs : cell.Passing f a h) {data : Inst} (hdata : h.insts.get? i = some data)
    (hc : cell.value ∈ data.operands) : ∃ inst, f.insts.get? i = some inst ∧
      inst.opcode = data.opcode ∧ inst.result = data.result ∧ cell.value ∈ inst.operands ∧
      ∀ n w, inst.opcode = .setRef → n = 1 → data.operands[n]? = some w → cell.Neutral a w := by
  obtain ⟨inst, hi, hshape, hslots⟩ := hs.uses.inst i data hdata
  obtain ⟨hop, -, hres, -⟩ := Inst.mk.inj hshape
  obtain ⟨n, hn⟩ := List.mem_iff_getElem?.1 hc
  have hc' : cell.value ∈ inst.operands :=
    List.mem_of_getElem? (hs.cell_slot i inst data hi hdata n hn)
  refine ⟨inst, hi, hop.symm, hres.symm, hc', ?_⟩
  rintro _ w hstore rfl hw
  refine ⟨?_, ?_⟩
  · rintro rfl
    have hmem := List.mem_of_getElem? ((hslots 1).1 hw)
    exact hb.apart i inst hi (.inr ⟨hc', .inr hstore⟩) (.inl hmem)
  · rintro rfl
    have hw' := hs.cell_slot i inst data hi hdata 1 hw
    rcases hp.with_joins.access (e := (i, inst)) hi hc' with ⟨hop', -⟩ | ⟨-, -, hne⟩ | ⟨proto, hop'⟩
    · simp [hstore] at hop'
    · exact hne hw'
    · simp [hstore] at hop'

theorem dissolveUse_ends (hs : cell.Passing f a h) (hv : cell.Neutral a v) (i : InstId) :
    Ends True (Edit.dissolveUse cell.value v i) h fun w g =>
      cell.Passing f a g ∧ cell.Neutral a w := by
  refine Edit.ends_query_bind fun data hdata => ?_
  replace hdata := Func.inst_eq_ok.1 hdata
  split
  · exact .pure ⟨hs, hv⟩
  · rename_i hc
    have hmem : cell.value ∈ data.operands := by simpa using hc
    obtain ⟨inst, hi, hop, hres, hc', hstored⟩ := hs.access hp hb hdata hmem
    have hremove : ∀ {g}, cell.Passing f a g → inst.opcode = .getRef ∨ inst.opcode = .setRef →
        Ends True (Edit.removeInst i) g fun _ g => cell.Passing f a g := by
      intro g hg hacc
      refine hg.removeAccess_ends hp hb fun inst' hi' => ?_
      obtain rfl := Option.some.inj (hi.symm.trans hi')
      exact ⟨hc', hacc⟩
    split
    · rename_i hload
      have hload' := hop.trans hload
      split
      · rename_i result hr
        -- Nothing that goes with the cell yields the bystander.
        have hne : result ≠ a := by
          rintro rfl
          exact hb.apart i inst hi (.inr ⟨hc', .inl hload'⟩) (.inr (hres.trans hr))
        refine .bind (.discard (hs.replaceAllUses_ends hne hv)) fun _ g hg => ?_
        exact .bind (hremove hg (.inl hload')) fun _ g' hg' => .pure ⟨hg', hv⟩
      · exact .bind (hremove hs (.inl hload')) fun _ g' hg' => .pure ⟨hg', hv⟩
    · rename_i hstore
      have hstore' := hop.trans hstore
      split
      · exact .throw _ trivial
      · rename_i w hw
        have hw' := hstored 1 w hstore' rfl hw
        exact .bind (hremove hs (.inr hstore')) fun _ g' hg' => .pure ⟨hg', hw'⟩
    · refine .bind (Ends.forM (I := fun _ g => cell.Passing f a g) _ ?_ hs)
        fun _ g hg => .pure ⟨hg, hv⟩
      rintro done ⟨c, n⟩ rest hsplit g hg
      have hplace : (c, n) ∈ data.operands.zipIdx.filter fun e => e.1 = cell.value := by
        rw [hsplit]
        simp
      refine hg.setOperand_ends hv fun inst' hi' hslot => ?_
      obtain rfl := Option.some.inj (hi.symm.trans hi')
      obtain ⟨hat, hcell⟩ := List.mem_filter.1 hplace
      have hget : data.operands[n]? = some cell.value := by
        rw [← of_decide_eq_true hcell]
        exact List.mem_zipIdx_iff_getElem?.1 hat
      -- The slot held the cell before, so it never held the bystander.
      have hold := hs.cell_slot i inst data hi hdata n hget
      exact hb.ne_cell hp.isIn (Option.some.inj (hslot.symm.trans hold))
    · exact .throw _ trivial

theorem walks {phiAt : OrderedMap BlockId PhiId}
    (hphis : ∀ b p, phiAt.get? b = some p → f.held a (.phi p) = 0) :
    Edit.Walks cell phiAt (cell.Passing f a) (cell.Neutral a) where
  use _ _ i hg hv := hg.dissolveUse_ends hp hb hv i
  phi _ _ _ _ _ hphi hg := hg.neutral_phi hp hb hphi
  source _ s _ b _ hat hg hv := hg.setPhiSource_ends (hphis s _ hat) b hv

omit hp hb in
theorem pruneDeadPhis_ends (hs : cell.Passing f a h) {phis : List PhiId}
    (hphis : ∀ p ∈ phis, f.held a (.phi p) = 0) :
    Ends True (Edit.pruneDeadPhis phis) h fun _ g => cell.Passing f a g := by
  have hdead : ∀ {live done rest : List PhiId} {p : PhiId},
      phis.filter (fun p => !live.contains p) = done ++ p :: rest → f.held a (.phi p) = 0 := by
    intro live done rest p hsplit
    have hmem : p ∈ phis.filter fun p => !live.contains p := by
      rw [hsplit]
      simp
    exact hphis p (List.mem_filter.1 hmem).1
  refine Edit.ends_query_bind fun live _ => .bind
    (Ends.forM (I := fun _ g => cell.Passing f a g) _ ?_ hs) fun _ g hg => .bind
    (Ends.forM (I := fun _ g => cell.Passing f a g) _ ?_ hg) fun _ g hg => .pure hg
  · intro done p rest hsplit g hg
    refine Edit.ends_query_bind fun phi _ => Ends.forM (I := fun _ g => cell.Passing f a g) _ ?_ hg
    exact fun _ pred _ _ g hg =>
      .discard (hg.removePhiSource_ends (hdead hsplit) pred)
  · exact fun done p rest hsplit g hg => hg.removePhi_ends (hdead hsplit)

theorem rename_ends (hs : cell.Passing f a h) (hv : cell.Neutral a cell.initial) :
    Ends True (Edit.rename d cell) h fun _ g => cell.Passing f a g := by
  refine .bind (Ends.mapM (I := fun g => cell.Passing f a g) (fun u _ g hg =>
    Edit.ends_query_bind fun _ _ => .pure hg) hs) fun stores g hg => .bind
    (Ends.foldlM (I := fun _ phiAt g => cell.Passing f a g ∧
      ∀ b p, phiAt.get? b = some p → f.held a (.phi p) = 0) _ ?_ ⟨hg, ?_⟩) ?_
  · rintro _ b _ _ phiAt g ⟨hg, hphis⟩
    refine .bind (hg.addPhi_ends b) ?_
    rintro p g ⟨hg, hzero⟩
    refine .pure ⟨hg, fun c q hq => ?_⟩
    rw [OrderedMap.get?_insert] at hq
    split at hq
    · exact Option.some.inj hq ▸ hzero
    · exact hphis c q hq
  · intro b p hb
    cases hb
  · rintro phiAt g ⟨hg, hphis⟩
    refine .bind ((walks hp hb hphis).renameFrom _ _ hg hv) fun _ g hg => .bind
      (hg.pruneDeadPhis_ends fun p hmem => ?_) fun _ g hg => .pure hg
    obtain ⟨b, hat⟩ := OrderedMap.mem_values.1 hmem
    exact hphis b p hat

theorem dissolve_ends : Ends True (Edit.dissolve d cell) f fun _ g => cell.Passing f a g := by
  have hs : cell.Passing f a f := .refl hp a
  have hv : cell.Neutral a cell.initial := by
    refine ⟨hb.ne_initial hp.isIn, fun heq => ?_⟩
    obtain ⟨inst, hi, -, -, hhead, -⟩ := hp.isIn.creation
    obtain ⟨u, hu, hcreation⟩ := hp.isIn.listed _ inst hi (List.mem_of_mem_head? (heq ▸ hhead))
    exact hp.use_ne_creation hu hcreation
  unfold Edit.dissolve
  split
  · exact .pure hs
  split
  · refine .bind (Ends.forM (I := fun _ g => cell.Passing f a g) _ ?_ hs) fun _ g hg => .pure hg
    exact fun _ u _ _ g hg =>
      .discard ((hg.dissolveUse_ends hp hb hv u.inst).imp fun _ _ hg' => hg'.1)
  split
  · rename_i hall
    refine .bind (Ends.forM (I := fun _ g => cell.Passing f a g) _ ?_ hs) fun _ g hg => .pure hg
    intro done u rest hsplit g hg
    have hu : u ∈ cell.uses := by
      rw [hsplit]
      simp
    refine hg.removeAccess_ends hp hb fun inst hi => ?_
    obtain ⟨inst', hi', -, hc, hfits⟩ := hp.isIn.use u hu
    obtain rfl := Option.some.inj (hi.symm.trans hi')
    have hstore := List.all_eq_true.1 hall u hu
    cases u with
    | store i => exact ⟨hc, .inr hfits.1⟩
    | load i => cases hstore
    | capture i => cases hstore
  refine .bind (Ends.mapM (I := fun g => cell.Passing f a g) (fun u _ g hg =>
    Edit.ends_query_bind fun _ _ => .pure hg) hs) fun blocks g hg => ?_
  split
  · have hw : Edit.Walks cell ∅ (cell.Passing f a) (cell.Neutral a) := walks hp hb nofun
    refine Edit.ends_query_bind fun insts _ => .bind (.discard
      ((hw.foldlM hg hv insts).imp fun _ _ hg' => hg'.1)) ?_
    exact fun _ _ hg' => .pure hg'
  · exact .bind (hg.rename_ends hp hb hv) fun _ _ hg' => .pure hg'

theorem removeCreation_ends (hs : cell.Passing f a h) :
    Ends True (Edit.removeInst cell.creation) h fun _ g => f.KeepsUses a g := by
  refine (hs.removeInst_ends fun inst hi => ⟨hb.apart _ inst hi (.inl rfl), ?_⟩).imp
    fun _ g hg => hg.2.1
  obtain ⟨inst', hi', hop, -⟩ := hp.isIn.creation
  obtain rfl := Option.some.inj (hi.symm.trans hi')
  simp [Inst.isTerminator, hop, Opcode.isTerminator]

end Walk

end Cell.Passing

end Midend
