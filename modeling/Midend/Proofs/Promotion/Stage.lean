import Midend.Proofs.Edit.Ensures
import Midend.Proofs.Promotion.Content

/-!
Functions on the way from a cell to its values. Instructions have lost nothing but accesses of the
cell; each operand is one that is equal to the original operand where it is read, or a copy of the
content where a closure held the cell; phis take equal values, and those that were added take copies
of the content. Every edit on the way keeps that.
-/

namespace Midend

open Cell

/-- What the operand `v` of an operation at a site has become. -/
def Cell.Reads (f : Func) (cell : Cell) (joins : Joins) (op : Opcode) (t : Site)
    (v w : ValueId) : Prop :=
  Same f cell joins t v w ∨
    (∃ proto, op = .closure proto) ∧ v = cell.value ∧ Copies f cell joins t w

/-- What a phi has become, or a phi that was added. -/
def Cell.PhiFits (f : Func) (cell : Cell) (joins : Joins) (p : PhiId) (phi : Phi) : Prop :=
  (∃ old, f.phis.get? p = some old ∧ phi.shape = old.shape ∧ ∀ q, Option.Rel
    (fun v w => f.Reachable q → Same f cell joins (.exit f q) v w) (old.source q) (phi.source q)) ∨
  f.phis.get? p = none ∧ joins phi.block = some phi.result ∧ ∀ q v, phi.source q = some v →
    f.Reachable q ∧ f.Edge q phi.block ∧ Copies f cell joins (.exit f q) v

/-- The instructions that go with the cell: its creation, its loads and its stores. -/
def Cell.Dissolves (cell : Cell) (i : InstId) (inst : Inst) : Prop :=
  i = cell.creation ∨
    cell.value ∈ inst.operands ∧ (inst.opcode = .getRef ∨ inst.opcode = .setRef)

/-- A function that `f` has become while the cell is taken out. -/
structure Stage (f : Func) (cell : Cell) (joins : Joins) (h : Func) : Prop where
  sound : h.Sound
  slots : h.SlotsLive
  entry : h.entry = f.entry
  arguments : h.arguments = f.arguments
  limit : h.dominanceLimit = f.dominanceLimit
  dominance : h.dominance = f.dominance
  size : h.blocks.size = f.blocks.size
  block : ∀ b, (h.blocks.get? b).map Block.insts =
    (f.blocks.get? b).map fun data => data.insts.filter h.insts.contains
  inst : ∀ i inst', h.insts.get? i = some inst' → ∃ inst, f.insts.get? i = some inst ∧
    inst'.shape = inst.shape ∧ ∀ k : Nat, (f.instsOf inst.block)[k]? = some (i, inst) →
      f.Reachable inst.block →
      List.Forall₂ (Reads f cell joins inst.opcode ⟨inst.block, k⟩) inst.operands inst'.operands
  gone : ∀ i inst, f.insts.get? i = some inst → h.insts.get? i = none → cell.Dissolves i inst
  phi : ∀ p phi, h.phis.get? p = some phi → PhiFits f cell joins p phi
  kept : ∀ p phi, f.phis.get? p = some phi → ∃ phi', h.phis.get? p = some phi'
  value : ∀ v val, h.values.get? v = some val →
    (∃ old, f.values.get? v = some old ∧ old.definition = val.definition) ∨
      f.values.get? v = none ∧ ∃ p, val.definition = .phi p
  stays : ∀ v, f.values.contains v = true → h.values.get? v = none →
    ∃ i inst, f.insts.get? i = some inst ∧ inst.result = some v ∧ h.insts.get? i = none
  held : ∀ u, f.held cell.value u = 0 → h.held cell.value u = 0

/-- Phis stay between two functions, and so does that a phi has a source for a block. -/
def Func.KeepsPhis (h g : Func) : Prop :=
  ∀ p phi, h.phis.get? p = some phi → ∃ phi', g.phis.get? p = some phi' ∧
    phi'.shape = phi.shape ∧ ∀ q, (phi.source q).isSome → (phi'.source q).isSome

/-- What stays between two functions: that a slot does not hold the value `c`, the instructions that
are not `lost`, and the phis. -/
structure Func.Keeps (c : ValueId) (lost : InstId → Prop) (h g : Func) : Prop where
  held : ∀ u, h.held c u = 0 → g.held c u = 0
  inst : ∀ i, ¬ lost i → h.insts.contains i = true → g.insts.contains i = true
  phi : h.KeepsPhis g

namespace Func

variable {f g h : Func} {c : ValueId} {lost lost' : InstId → Prop}

theorem KeepsPhis.refl (h : Func) : h.KeepsPhis h := fun _ phi hp => ⟨phi, hp, rfl, fun _ => id⟩

theorem KeepsPhis.trans (hfg : f.KeepsPhis g) (hgh : g.KeepsPhis h) : f.KeepsPhis h := by
  intro p phi hp
  obtain ⟨phi', hp', hshape, hsource⟩ := hfg p phi hp
  obtain ⟨phi'', hp'', hshape', hsource'⟩ := hgh p phi' hp'
  exact ⟨phi'', hp'', hshape'.trans hshape, fun q hq => hsource' q (hsource q hq)⟩

namespace Keeps

theorem refl (c : ValueId) (lost : InstId → Prop) (h : Func) : Keeps c lost h h :=
  ⟨fun _ => id, fun _ _ => id, .refl h⟩

theorem trans (hfg : Keeps c lost f g) (hgh : Keeps c lost g h) : Keeps c lost f h where
  held u hu := hgh.held u (hfg.held u hu)
  inst i hi hc := hgh.inst i hi (hfg.inst i hi hc)
  phi := hfg.phi.trans hgh.phi

end Keeps

theorem Keeps.of_shape (hs : h.SameShape g) (hheld : ∀ u, h.held c u = 0 → g.held c u = 0)
    (hphi : ∀ p a b, h.phis.get? p = some a → g.phis.get? p = some b →
      ∀ q, (a.source q).isSome → (b.source q).isSome) : Keeps c lost h g where
  held := hheld
  inst i _ hi := (hs.contains_inst i).trans hi
  phi p a ha := by
    obtain ⟨b, hb, hblock, hres⟩ := hs.symm.get?_phi ha
    exact ⟨b, hb, by rw [Phi.shape, Phi.shape, hblock, hres], hphi p a b ha hb⟩

end Func

theorem Promotable.not_terminator {f : Func} {d : Dominance} {cell : Cell}
    (hp : Promotable f d cell) {i : InstId} {inst : Inst}
    (hi : f.insts.get? i = some inst) (hdis : cell.Dissolves i inst) :
    inst.isTerminator = false := by
  rcases hdis with rfl | ⟨-, hop | hop⟩
  · obtain ⟨inst', hi', hop, -⟩ := hp.isIn.creation
    obtain rfl := Option.some.inj (hi.symm.trans hi')
    simp [Inst.isTerminator, hop, Opcode.isTerminator]
  · simp [Inst.isTerminator, hop, Opcode.isTerminator]
  · simp [Inst.isTerminator, hop, Opcode.isTerminator]

namespace Stage

variable {f g h : Func} {d : Dominance} {cell : Cell} {joins : Joins}

theorem of_shape (hs : Stage f cell joins h) (hshape : h.SameShape g) (huses : g.UsesAgree)
    (hslots : g.SlotsLive) (hheld : ∀ u, h.held cell.value u = 0 → g.held cell.value u = 0)
    (hinst : ∀ i inst a b k, f.insts.get? i = some inst →
      (f.instsOf inst.block)[k]? = some (i, inst) → f.Reachable inst.block →
      h.insts.get? i = some a → g.insts.get? i = some b →
      List.Forall₂ (Reads f cell joins inst.opcode ⟨inst.block, k⟩) inst.operands a.operands →
      List.Forall₂ (Reads f cell joins inst.opcode ⟨inst.block, k⟩) inst.operands b.operands)
    (hphi : ∀ p a b, h.phis.get? p = some a → g.phis.get? p = some b →
      PhiFits f cell joins p a → PhiFits f cell joins p b) : Stage f cell joins g where
  sound := hs.sound.of_shape hshape huses
  slots := hslots
  entry := hshape.entry.trans hs.entry
  arguments := hshape.arguments.trans hs.arguments
  limit := hshape.dominanceLimit.trans hs.limit
  dominance := hshape.dominance.trans hs.dominance
  size := (congrArg Arena.size hshape.blocks).trans hs.size
  block b := by
    rw [hshape.blocks, hs.block b]
    refine congrArg (Option.map · _) (funext fun data => List.filter_congr fun i _ => ?_)
    exact (hshape.contains_inst i).symm
  inst i b hb := by
    obtain ⟨a, ha, hop, hres, hblock⟩ := hshape.get?_inst hb
    obtain ⟨inst, hi, heq, hreads⟩ := hs.inst i a ha
    refine ⟨inst, hi, ?_, fun k hk hreach => hinst i inst a b k hi hk hreach ha hb
      (hreads k hk hreach)⟩
    rw [← heq, Inst.shape, Inst.shape, hop, hres, hblock]
  gone i inst hi hg := by
    refine hs.gone i inst hi ?_
    have heq := hshape.inst i
    rw [hg, Option.map_none] at heq
    exact Option.map_eq_none_iff.1 heq.symm
  phi p b hb := by
    obtain ⟨a, ha, -⟩ := hshape.get?_phi hb
    exact hphi p a b ha hb (hs.phi p a ha)
  kept p phi hp := by
    obtain ⟨a, ha⟩ := hs.kept p phi hp
    obtain ⟨b, hb, -⟩ := hshape.symm.get?_phi ha
    exact ⟨b, hb⟩
  value v val hv := by
    obtain ⟨val', hv', hdef, -⟩ := hshape.get?_value hv
    rcases hs.value v val' hv' with ⟨old, hold, heq⟩ | ⟨hnone, p, heq⟩
    · exact .inl ⟨old, hold, heq.trans hdef⟩
    · exact .inr ⟨hnone, p, hdef.symm.trans heq⟩
  stays v hv hg := by
    have heq := hshape.value v
    rw [hg, Option.map_none] at heq
    obtain ⟨i, inst, hi, hr, hnone⟩ := hs.stays v hv (Option.map_eq_none_iff.1 heq.symm)
    refine ⟨i, inst, hi, hr, ?_⟩
    have heq' := hshape.inst i
    rw [hnone, Option.map_none] at heq'
    exact Option.map_eq_none_iff.1 heq'
  held u hu := hheld u (hs.held u hu)

end Stage

theorem rel_map {α β : Type} {R : α → β → Prop} {a : Option α} {b : Option β} {u : β → β}
    (h : Option.Rel R a b) (hu : ∀ x y, R x y → R x (u y)) : Option.Rel R a (b.map u) := by
  cases h with
  | some hr => exact .some (hu _ _ hr)
  | none => exact .none

section Swap

variable {f : Func} {cell : Cell} {joins : Joins} {t : Site} {u v w old new : ValueId}

theorem Cell.Same.refl (hv : Available f joins v t) : Same f cell joins t v v :=
  ⟨hv, hv, Iff.rfl, fun _ _ => rfl⟩

theorem Cell.Same.trans (h : Same f cell joins t u v) (k : Same f cell joins t v w) :
    Same f cell joins t u w :=
  ⟨h.left, k.right, h.cell_iff.trans k.cell_iff, fun x hx => (h.eq x hx).trans (k.eq x hx)⟩

variable (hnew : ∀ t, Available f joins old t → Same f cell joins t old new)
include hnew

theorem Cell.Same.swap (h : Same f cell joins t v w) :
    Same f cell joins t v (Func.swap old new w) := by
  unfold Func.swap
  split
  · subst w
    exact h.trans (hnew t h.right)
  · exact h

theorem Cell.Copies.swap (h : Copies f cell joins t w) :
    Copies f cell joins t (Func.swap old new w) := by
  unfold Func.swap
  split
  · subst w
    exact Promoting.copies_of_same h (hnew t h.available)
  · exact h

theorem Cell.Reads.swap {op : Opcode} (h : Reads f cell joins op t v w) :
    Reads f cell joins op t v (Func.swap old new w) :=
  h.imp (·.swap hnew) fun ⟨hop, hv, hw⟩ => ⟨hop, hv, hw.swap hnew⟩

theorem Cell.PhiFits.replace {p : PhiId} {phi : Phi} (h : PhiFits f cell joins p phi) :
    PhiFits f cell joins p (phi.replace old new) := by
  have hsource : ∀ q, (phi.replace old new).source q = (phi.source q).map (Func.swap old new) :=
    fun q => OrderedMap.get?_mapValues _ _ q
  rcases h with ⟨phi', hp, hshape, hsame⟩ | ⟨hp, hjoin, hcopies⟩
  · refine .inl ⟨phi', hp, hshape, fun q => ?_⟩
    rw [hsource]
    exact rel_map (hsame q) fun _ _ hvw hq => (hvw hq).swap hnew
  · refine .inr ⟨hp, hjoin, fun q v hv => ?_⟩
    rw [hsource] at hv
    obtain ⟨w, hw, rfl⟩ := Option.map_eq_some_iff.1 hv
    obtain ⟨hq, hedge, hc⟩ := hcopies q w hw
    exact ⟨hq, hedge, hc.swap hnew⟩

end Swap

namespace Stage

variable {f g h : Func} {d : Dominance} {cell : Cell} {joins : Joins} {old new v : ValueId}

/-- A value may be replaced by one that it is equal to wherever it is available. -/
theorem replaceAllUses_ensures (hs : Stage f cell joins h) (lost : InstId → Prop)
    (hold : h.values.contains old = true) (hlive : h.values.contains new = true)
    (holdc : old ≠ cell.value) (hnewc : new ≠ cell.value)
    (hnew : ∀ t, Available f joins old t → Same f cell joins t old new) :
    (Edit.replaceAllUses old new).Ensures h fun _ g => Stage f cell joins g ∧
      h.Keeps cell.value lost g ∧ h.SameShape g ∧ (old ≠ new → ∀ u, g.held old u = 0) := by
  refine (Edit.replaceAllUses_ensures hs.sound.uses hold hlive).imp fun _ g hr => ?_
  have hheld : ∀ u, h.held cell.value u = 0 → g.held cell.value u = 0 := fun u hu =>
    (hr.held_of_ne holdc.symm hnewc.symm u).trans hu
  have hslots := hs.slots.replaced hr (.inr hlive)
  refine ⟨hs.of_shape hr.shape hr.uses hslots hheld
    (fun i inst a b k hi hk hreach ha hb hreads => ?_) (fun p a b ha hb hfits => ?_),
    .of_shape hr.shape hheld fun p a b ha hb q hq => ?_, hr.shape, fun hne => hr.held_old hne⟩
  · rw [hr.insts, ha] at hb
    obtain rfl := Option.some.inj hb
    exact List.forall₂_map_right_iff.2 (hreads.imp fun _ _ hvw => hvw.swap hnew)
  · rw [hr.phis, ha] at hb
    obtain rfl := Option.some.inj hb
    exact hfits.replace hnew
  · rw [hr.phis, ha] at hb
    obtain rfl := Option.some.inj hb
    show ((a.sources.mapValues _).get? q).isSome = true
    rw [OrderedMap.get?_mapValues, Option.isSome_map]
    exact hq

theorem forall₂_set {α β : Type} {R : α → β → Prop} {as : List α} {bs : List β}
    (h : List.Forall₂ R as bs) {n : Nat} {a : α} {b : β} (ha : as[n]? = some a) (hab : R a b) :
    List.Forall₂ R as (bs.set n b) := by
  induction h generalizing n with
  | nil => simp at ha
  | cons hr _ ih =>
    cases n with
    | zero =>
      obtain rfl := Option.some.inj ha
      exact .cons hab ‹_›
    | succ n => exact .cons hr (ih ha)

/-- A closure may take a copy of the content in place of the cell. -/
theorem setOperand_ensures (hp : Promoting f d cell joins) (hs : Stage f cell joins h)
    (lost : InstId → Prop) {b : BlockId} {k index : Nat} {e : InstId × Inst} {data : Inst}
    (hk : (f.instsOf b)[k]? = some e) (hop : ∃ proto, e.2.opcode = .closure proto)
    (hdata : h.insts.get? e.1 = some data) (hindex : data.operands[index]? = some cell.value)
    (hindex' : e.2.operands[index]? = some cell.value)
    (hlive : h.values.contains v = true) (hv : Copies f cell joins ⟨b, k⟩ v) :
    (Edit.setOperand e.1 index v).Ensures h fun _ g => Stage f cell joins g ∧
      h.Keeps cell.value lost g ∧
      g.insts.get? e.1 = some { data with operands := data.operands.set index v } := by
  refine (Edit.setOperand_ensures hlive hdata hindex).imp ?_
  rintro _ g rfl
  rw [if_neg hv.ne.symm]
  obtain ⟨val, hval⟩ := Option.isSome_iff_exists.1 hlive
  have hshape : h.SameShape (h.withOperand e.1 index cell.value v) := .withOperand _ _ _ _ _
  have hinsts : ∀ i, (h.withOperand e.1 index cell.value v).insts.get? i = if i = e.1 then
      (h.insts.get? i).map fun d => { d with operands := d.operands.set index v }
      else h.insts.get? i := by
    intro i
    rw [Func.withOperand, Func.moveUse_insts, Arena.get?_modify]
  have hphis : (h.withOperand e.1 index cell.value v).phis = h.phis := by
    rw [Func.withOperand, Func.moveUse_phis]
  have hle := fun w u => Func.held_withOperand_le hdata hindex v w u
  have hheld : ∀ u, h.held cell.value u = 0 →
      (h.withOperand e.1 index cell.value v).held cell.value u = 0 := by
    intro u hu
    have := hle cell.value u
    rw [if_neg hv.ne] at this
    omega
  refine ⟨hs.of_shape hshape (hs.sound.uses.withOperand hdata hindex hval)
    (hs.slots.widen hshape hlive hle) hheld
    (fun i inst a c k' hi hk' hreach ha hc hreads => ?_) (fun p a c ha hc hfits => ?_),
    .of_shape hshape hheld fun p a c ha hc q hq => ?_, by rw [hinsts, if_pos rfl, hdata]; rfl⟩
  · rw [hinsts, ha] at hc
    split at hc
    · subst i
      obtain rfl := Option.some.inj hc
      obtain ⟨-, -, -, he⟩ := Func.mem_instsOf.1 (List.mem_of_getElem? hk)
      obtain rfl := Option.some.inj (he.symm.trans hi)
      have hblock := hp.sound.linked.block_of_instsOf (List.mem_of_getElem? hk)
      rw [hblock] at hk' hreads ⊢
      obtain rfl := hp.sound.linked.place_unique hk hk' rfl
      exact forall₂_set hreads hindex' (.inr ⟨hop, rfl, hv⟩)
    · obtain rfl := Option.some.inj hc
      exact hreads
  · rw [hphis, ha] at hc
    obtain rfl := Option.some.inj hc
    exact hfits
  · rw [hphis, ha] at hc
    obtain rfl := Option.some.inj hc
    exact hq

theorem withoutInst (hp : Promotable f d cell) (hs : Stage f cell joins h) {i : InstId}
    {inst data : Inst} (hi : f.insts.get? i = some inst) (hdata : h.insts.get? i = some data)
    (hdis : cell.Dissolves i inst) (hsound : g.Sound) (hg : h.WithoutInst i data g) :
    Stage f cell joins g where
  sound := hsound
  slots := hg.slotsLive hs.slots
  entry := hg.entry.trans hs.entry
  arguments := hg.arguments.trans hs.arguments
  limit := hg.limit.trans hs.limit
  dominance := by
    obtain ⟨inst', hi', hshape, -⟩ := hs.inst i data hdata
    obtain rfl := Option.some.inj (hi.symm.trans hi')
    obtain ⟨hop, -⟩ := Inst.mk.inj hshape
    have hterm : data.isTerminator = false := by
      rw [Inst.isTerminator, hop]
      exact hp.not_terminator hi hdis
    exact (hg.dominance hterm).trans hs.dominance
  size := by rw [hg.blocks, Arena.size_modify, hs.size]
  block b := by
    rw [hg.map_insts hs.sound.linked hdata, hs.block, Option.map_map]
    refine congrArg (Option.map · _) (funext fun dat => ?_)
    rw [Function.comp_apply, List.filter_filter]
    exact List.filter_congr fun j _ => (hg.contains_inst j).symm
  inst j a hj := by
    rw [hg.insts, Arena.get?_erase] at hj
    split at hj
    · cases hj
    · exact hs.inst j a hj
  gone j a hj hnone := by
    rw [hg.insts, Arena.get?_erase] at hnone
    split at hnone
    · subst j
      obtain rfl := Option.some.inj (hi.symm.trans hj)
      exact hdis
    · exact hs.gone j a hj hnone
  phi := by
    rw [hg.phis]
    exact hs.phi
  kept := by
    rw [hg.phis]
    exact hs.kept
  value v val hv := by
    obtain ⟨old, hold, hdef⟩ := hg.get?_value hv
    rw [← hdef]
    exact hs.value v old hold
  stays v hv hnone := by
    obtain ⟨inst', hi', hshape, -⟩ := hs.inst i data hdata
    obtain rfl := Option.some.inj (hi.symm.trans hi')
    obtain ⟨-, -, hres, -⟩ := Inst.mk.inj hshape
    simp only [hg.insts, Arena.get?_erase]
    by_cases hr : data.result = some v
    · exact ⟨i, inst, hi, hres.symm.trans hr, if_pos rfl⟩
    · -- Of the values only the result goes; any other one was gone before.
      cases hold : h.values.get? v with
      | none =>
        obtain ⟨j, a, hj, hra, hgone⟩ := hs.stays v hv hold
        exact ⟨j, a, hj, hra, by rw [hgone, ite_self]⟩
      | some val =>
        have hkept := hg.contains (Option.isSome_iff_exists.2 ⟨val, hold⟩) hr
        rw [Arena.contains, hnone] at hkept
        cases hkept
  held u hu := Nat.le_zero.1 (Nat.le_trans (hg.held_le _ u) (Nat.le_of_eq (hs.held u hu)))

/-- The creation and the accesses of the cell may go once nothing uses their results. -/
theorem removeInst_ensures (hp : Promotable f d cell) (hs : Stage f cell joins h) {i : InstId}
    {inst : Inst} (hi : f.insts.get? i = some inst) (hlive : h.insts.contains i = true)
    (hdis : cell.Dissolves i inst)
    (hunused : ∀ v u, inst.result = some v → h.held v u = 0) :
    (Edit.removeInst i).Ensures h fun _ g => Stage f cell joins g ∧
      h.Keeps cell.value (· = i) g ∧ g.insts = h.insts.erase i ∧ g.phis = h.phis := by
  obtain ⟨data, hdata⟩ := Option.isSome_iff_exists.1 hlive
  obtain ⟨inst', hi', hshape, -⟩ := hs.inst i data hdata
  obtain rfl := Option.some.inj (hi.symm.trans hi')
  obtain ⟨-, -, hres, -⟩ := Inst.mk.inj hshape
  refine (Edit.removeInst_ensures hs.sound hdata fun v u hv => hunused v u (hres ▸ hv)).imp ?_
  rintro _ g ⟨hsound, hg⟩
  refine ⟨hs.withoutInst hp hi hdata hdis hsound hg, ⟨fun u hu => ?_, fun j hj hc => ?_,
    fun p phi hp => ⟨phi, hg.phis ▸ hp, rfl, fun _ => id⟩⟩, hg.insts, hg.phis⟩
  · exact Nat.le_zero.1 (Nat.le_trans (hg.held_le _ u) (Nat.le_of_eq hu))
  · rw [hg.contains_inst, hc]
    simpa using hj

theorem withoutPhi (hp : Promoting f d cell joins) (hs : Stage f cell joins h) {p : PhiId}
    {data : Phi} (hnew : f.phis.get? p = none) (hdata : h.phis.get? p = some data)
    (hsound : g.Sound) (hg : h.WithoutPhi p data g) : Stage f cell joins g where
  sound := hsound
  slots := hg.slotsLive hs.slots
  entry := hg.entry.trans hs.entry
  arguments := hg.arguments.trans hs.arguments
  limit := hg.limit.trans hs.limit
  dominance := hg.dominance.trans hs.dominance
  size := by rw [hg.blocks, Arena.size_modify, hs.size]
  block b := by
    rw [hg.insts, ← hs.block, hg.blocks, Arena.get?_modify]
    split
    · rw [Option.map_map]
      rfl
    · rfl
  inst := by
    rw [hg.insts]
    exact hs.inst
  gone := by
    rw [hg.insts]
    exact hs.gone
  phi q phi hq := by
    rw [hg.phis, Arena.get?_erase] at hq
    split at hq
    · cases hq
    · exact hs.phi q phi hq
  kept q phi hq := by
    rw [hg.phis, Arena.get?_erase, if_neg]
    · exact hs.kept q phi hq
    · rintro rfl
      rw [hnew] at hq
      cases hq
  value v val hv := by
    obtain ⟨old, hold, hdef⟩ := hg.get?_value hv
    rw [← hdef]
    exact hs.value v old hold
  stays v hv hnone := by
    rw [hg.insts]
    refine hs.stays v hv (Option.eq_none_iff_forall_ne_some.2 fun val hval => ?_)
    -- The result of an added phi is fresh, so it is none of the values of `f`.
    have hne : data.result ≠ v := by
      rintro rfl
      rcases hs.phi p data hdata with ⟨old, hold, -⟩ | ⟨-, hjoin, -⟩
      · rw [hnew] at hold
        cases hold
      · rw [Arena.contains, hp.join_fresh _ _ hjoin] at hv
        cases hv
    have hkept := hg.contains (Option.isSome_iff_exists.2 ⟨val, hval⟩) hne
    rw [Arena.contains, hnone] at hkept
    cases hkept
  held u hu := Nat.le_zero.1 (Nat.le_trans (hg.held_le _ u) (Nat.le_of_eq (hs.held u hu)))

/-- A phi that was added may go once nothing but itself uses it. -/
theorem removePhi_ensures (hp : Promoting f d cell joins) (hs : Stage f cell joins h) {p : PhiId}
    {data : Phi} (hnew : f.phis.get? p = none) (hdata : h.phis.get? p = some data)
    (hunused : ∀ u, u ≠ .phi p → h.held data.result u = 0) :
    (Edit.removePhi p).Ensures h fun _ g => Stage f cell joins g ∧ g.insts = h.insts ∧
      g.phis = h.phis.erase p := by
  refine (Edit.removePhi_ensures hs.sound hdata hunused).imp ?_
  rintro _ g ⟨hsound, hg⟩
  exact ⟨hs.withoutPhi hp hnew hdata hsound hg, hg.insts, hg.phis⟩

theorem of_sources (hs : Stage f cell joins h) {p : PhiId} {phi : Phi} (hnew : f.phis.get? p = none)
    (hphi : h.phis.get? p = some phi) (hshape : h.SameShape g) (huses : g.UsesAgree)
    (hslots : g.SlotsLive) (hheld : ∀ u, h.held cell.value u = 0 → g.held cell.value u = 0)
    (hinsts : g.insts = h.insts) {sources : OrderedMap BlockId ValueId}
    (hphis : ∀ q, g.phis.get? q = if q = p then some { phi with sources } else h.phis.get? q)
    (hcopies : ∀ q v, sources.get? q = some v → phi.source q = some v ∨
      f.Reachable q ∧ f.Edge q phi.block ∧ Copies f cell joins (.exit f q) v) :
    Stage f cell joins g := by
  refine hs.of_shape hshape huses hslots hheld (fun i inst a b k hi hk hreach ha hb hreads => ?_)
    fun q a b ha hb hfits => ?_
  · rw [hinsts, ha] at hb
    obtain rfl := Option.some.inj hb
    exact hreads
  · rw [hphis] at hb
    split at hb
    · subst q
      obtain rfl := Option.some.inj hb
      obtain rfl := Option.some.inj (hphi.symm.trans ha)
      rcases hfits with ⟨old, hold, -⟩ | ⟨-, hjoin, hall⟩
      · rw [hnew] at hold
        cases hold
      · exact .inr ⟨hnew, hjoin, fun s v hv => (hcopies s v hv).elim (hall s v) id⟩
    · obtain rfl := Option.some.inj (ha.symm.trans hb)
      exact hfits

theorem setPhiSource_ensures (hs : Stage f cell joins h) (lost : InstId → Prop) {p : PhiId}
    {phi : Phi} {pred : BlockId} (hnew : f.phis.get? p = none) (hphi : h.phis.get? p = some phi)
    (hb : h.hasBlock pred = true) (hlive : h.values.contains v = true) (hreach : f.Reachable pred)
    (hedge : f.Edge pred phi.block) (hv : Copies f cell joins (.exit f pred) v) :
    (Edit.setPhiSource p pred v).Ensures h fun _ g => Stage f cell joins g ∧
      h.Keeps cell.value lost g ∧ ∃ phi', g.phis.get? p = some phi' ∧
        (phi'.source pred).isSome = true := by
  refine (Edit.setPhiSource_ensures hlive hb hphi).imp ?_
  rintro _ g rfl
  obtain ⟨val, hval⟩ := Option.isSome_iff_exists.1 hlive
  have hshape : h.SameShape (h.withSource p (phi.source pred) pred v) := .withSource _ _ _ _ _
  have hphis : ∀ q, (h.withSource p (phi.source pred) pred v).phis.get? q =
      if q = p then some { phi with sources := phi.sources.insert pred v } else h.phis.get? q := by
    intro q
    rw [Func.withSource, Func.moveUse_phis, Arena.get?_modify]
    split
    · subst q
      rw [hphi]
      rfl
    · rfl
  have hle := fun w u => Func.held_withSource_le hphi pred v w u
  have hheld : ∀ u, h.held cell.value u = 0 →
      (h.withSource p (phi.source pred) pred v).held cell.value u = 0 := by
    intro u hu
    have := hle cell.value u
    rw [if_neg hv.ne] at this
    omega
  refine ⟨hs.of_sources hnew hphi hshape (hs.sound.uses.withSource hphi hval)
    (hs.slots.widen hshape hlive hle) hheld (by rw [Func.withSource, Func.moveUse_insts]) hphis
    fun q w hw => ?_, .of_shape hshape hheld fun q a b ha hb s hs => ?_, _,
    by rw [hphis, if_pos rfl], ?_⟩
  · rw [OrderedMap.get?_insert] at hw
    split at hw
    · subst q
      obtain rfl := Option.some.inj hw
      exact .inr ⟨hreach, hedge, hv⟩
    · exact .inl hw
  · rw [hphis] at hb
    split at hb
    · subst q
      obtain rfl := Option.some.inj hb
      obtain rfl := Option.some.inj (hphi.symm.trans ha)
      show ((phi.sources.insert pred v).get? s).isSome = true
      rw [OrderedMap.get?_insert]
      split
      · rfl
      · exact hs
    · rw [ha] at hb
      obtain rfl := Option.some.inj hb
      exact hs
  · show ((phi.sources.insert pred v).get? pred).isSome = true
    rw [OrderedMap.get?_insert, if_pos rfl]
    rfl

theorem removePhiSource_ensures (hs : Stage f cell joins h) {p : PhiId} {phi : Phi}
    {pred : BlockId} (hnew : f.phis.get? p = none) (hphi : h.phis.get? p = some phi) :
    (Edit.removePhiSource p pred).Ensures h fun _ g => Stage f cell joins g ∧ g.insts = h.insts ∧
      ∀ q, g.phis.get? q =
        if q = p then some { phi with sources := phi.sources.erase pred } else h.phis.get? q := by
  refine (Edit.removePhiSource_ensures hphi).imp ?_
  rintro _ g rfl
  have hshape : h.SameShape (h.withoutSource p (phi.source pred) pred) := .withoutSource _ _ _ _
  have hphis : ∀ q, (h.withoutSource p (phi.source pred) pred).phis.get? q =
      if q = p then some { phi with sources := phi.sources.erase pred } else h.phis.get? q := by
    intro q
    rw [Func.withoutSource, Func.moveUse_phis, Arena.get?_modify]
    split
    · subst q
      rw [hphi]
      rfl
    · rfl
  have hinsts : (h.withoutSource p (phi.source pred) pred).insts = h.insts := by
    rw [Func.withoutSource, Func.moveUse_insts]
  have hle := fun w u => Edit.held_withoutSource_le hphi pred w u
  have hkeep : ∀ w, h.values.contains w = true →
      (h.withoutSource p (phi.source pred) pred).values.contains w = true := fun w hw =>
    (hshape.contains_value w).trans hw
  refine ⟨hs.of_sources hnew hphi hshape (hs.sound.uses.withoutSource hphi)
    (.of_held (fun w u hw => hs.slots.contains_of_held (Nat.lt_of_lt_of_le hw (hle w u))) hkeep)
    (fun u hu => ?_) hinsts hphis fun q w hw => ?_, hinsts, hphis⟩
  · exact Nat.le_zero.1 (Nat.le_trans (hle _ u) (Nat.le_of_eq hu))
  · rw [OrderedMap.get?_erase] at hw
    split at hw
    · cases hw
    · exact .inl hw

end Stage

end Midend
