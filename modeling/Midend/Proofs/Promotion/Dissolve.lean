import Midend.Proofs.Promotion.Stage

/-!
Taking the cell out of one instruction after the other. As long as the instructions before a site
have been seen, the value carried to it is a copy of the content that no access of the cell yields,
so it is there to stay.
-/

namespace Midend

open Cell

def Cell.Lasting (f : Func) (cell : Cell) (joins : Joins) (v : ValueId) : Prop :=
  (f.values.contains v = true ∧ ∀ i inst, f.insts.get? i = some inst → inst.result = some v →
    ¬ cell.Dissolves i inst) ∨ ∃ b, joins b = some v

/-- A stage in which the instructions `seen` do not hold the cell and all others are still there;
every join value is the result of a phi. -/
structure Dissolving (f : Func) (cell : Cell) (joins : Joins) (seen : InstId → Prop) (h : Func) :
    Prop where
  stage : Stage f cell joins h
  freed : ∀ i, seen i → h.held cell.value (.inst i) = 0
  pending : ∀ i, f.insts.contains i = true → ¬ seen i → h.insts.contains i = true
  joined : ∀ b v, joins b = some v → ∃ p phi, h.phis.get? p = some phi ∧ phi.block = b ∧
    phi.result = v

/-- The instructions that hold the cell and come before a site have been seen. -/
def Cell.Cleared (f : Func) (cell : Cell) (seen : InstId → Prop) (t : Site) : Prop :=
  ∀ c j e, (f.instsOf c)[j]? = some e → cell.value ∈ e.2.operands →
    (⟨c, j + 1⟩ : Site).Before f t → seen e.1

variable {f g h : Func} {d : Dominance} {cell : Cell} {joins : Joins} {seen : InstId → Prop}
  {b : BlockId} {k : Nat} {t : Site} {e : InstId × Inst} {v w current : ValueId}

namespace Stage

theorem gone_of_freed (hp : Promoting f d cell joins) (hs : Stage f cell joins h) {i : InstId}
    {inst : Inst} (hi : f.insts.get? i = some inst) (hc : cell.value ∈ inst.operands)
    (hop : inst.opcode = .getRef ∨ inst.opcode = .setRef)
    (hfreed : h.held cell.value (.inst i) = 0) : h.insts.get? i = none := by
  refine Option.eq_none_iff_forall_ne_some.2 fun data hdata => ?_
  obtain ⟨inst', hi', -, hreads⟩ := hs.inst i data hdata
  obtain rfl := Option.some.inj (hi.symm.trans hi')
  -- A load or store has the cell in front, and what stands there now is equal to the cell.
  have hhead : inst.operands.head? = some cell.value := by
    rcases hp.access (e := (i, inst)) hi hc with ⟨-, hhead⟩ | ⟨-, hhead, -⟩ | ⟨proto, hclosure⟩
    · exact hhead
    · exact hhead
    · rcases hop with hop | hop <;> simp [hop] at hclosure
  obtain ⟨k, hk⟩ := hp.sound.linked.exists_getElem?_instsOf hi
  have hall := hreads k hk (hp.user_reachable (e := (i, inst)) hi hc)
  rw [Func.held_inst, hdata] at hfreed
  have hno : cell.value ∉ data.operands := List.count_eq_zero.1 hfreed
  cases hops : inst.operands with
  | nil => simp [hops] at hhead
  | cons v rest =>
    rw [hops] at hall hhead
    obtain rfl := Option.some.inj hhead
    obtain ⟨w, rest', hread, -, heq⟩ := List.forall₂_cons_left_iff.1 hall
    rcases hread with hsame | ⟨⟨proto, hclosure⟩, -⟩
    · rw [heq, hsame.cell_iff.1 rfl] at hno
      exact hno List.mem_cons_self
    · rcases hop with hop | hop <;> simp [hop] at hclosure

theorem mem_operands (hs : Stage f cell joins h) {i : InstId} {inst data : Inst}
    (hi : f.insts.get? i = some inst) (hdata : h.insts.get? i = some data)
    (hc : cell.value ∈ data.operands) : cell.value ∈ inst.operands := by
  by_contra hno
  have hzero := hs.held (.inst i) (by
    rw [Func.held_inst, hi]
    exact List.count_eq_zero.2 hno)
  rw [Func.held_inst, hdata] at hzero
  exact List.count_eq_zero.1 hzero hc

theorem getElem?_cell (hp : Promoting f d cell joins) (hs : Stage f cell joins h)
    (hk : (f.instsOf b)[k]? = some e) (hb : f.Reachable b) {data : Inst}
    (hdata : h.insts.get? e.1 = some data) {n : Nat} (hn : data.operands[n]? = some cell.value) :
    e.2.operands[n]? = some cell.value := by
  obtain ⟨-, -, -, hi⟩ := Func.mem_instsOf.1 (List.mem_of_getElem? hk)
  obtain ⟨inst, hi', -, hreads⟩ := hs.inst e.1 data hdata
  obtain rfl := Option.some.inj (hi.symm.trans hi')
  rw [hp.sound.linked.block_of_instsOf (List.mem_of_getElem? hk)] at hreads
  have hall := hreads k hk hb
  obtain ⟨hlt, hget⟩ := List.getElem?_eq_some_iff.1 hn
  have hlt' : n < e.2.operands.length := hall.length_eq ▸ hlt
  have hread := (List.forall₂_iff_get.1 hall).2 n hlt' hlt
  simp only [List.get_eq_getElem, hget] at hread
  rw [List.getElem?_eq_getElem hlt']
  rcases hread with hsame | ⟨-, heq, -⟩
  · rw [hsame.cell_iff.2 rfl]
  · rw [heq]

theorem value_cases (hp : Promoting f d cell joins) (hs : Stage f cell joins h) {val : Value}
    (hv : h.values.get? v = some val) :
    (∃ old, f.values.get? v = some old ∧ old.definition = val.definition) ∨
      ∃ p phi, val.definition = .phi p ∧ h.phis.get? p = some phi ∧ phi.result = v ∧
        f.phis.get? p = none ∧ joins phi.block = some v := by
  rcases hs.value v val hv with hold | ⟨hnone, p, hdef⟩
  · exact .inl hold
  · obtain ⟨phi, hphi, hres⟩ := hs.sound.linked.phi_origin v val p hv hdef
    rcases hs.phi p phi hphi with ⟨old, hold, hshape, -⟩ | ⟨hnew, hjoin, -⟩
    · obtain ⟨val', hval', -⟩ := hp.sound.linked.phi_result p old hold
      obtain ⟨-, hres', -⟩ := Phi.mk.inj hshape
      rw [← hres', hres, hnone] at hval'
      cases hval'
    · exact .inr ⟨p, phi, hdef, hphi, hres, hnew, hres ▸ hjoin⟩

end Stage

namespace Dissolving

theorem step {seen' lost : InstId → Prop} (hd : Dissolving f cell joins seen h)
    (hg : Stage f cell joins g) (hk : h.Keeps cell.value lost g)
    (hfreed : ∀ i, seen' i → seen i ∨ g.held cell.value (.inst i) = 0)
    (hseen : ∀ i, seen i ∨ lost i → seen' i) : Dissolving f cell joins seen' g where
  stage := hg
  freed i hi := (hfreed i hi).elim (fun hs => hk.held _ (hd.freed i hs)) id
  pending i hi hs := hk.inst i (fun hl => hs (hseen i (.inr hl)))
    (hd.pending i hi fun hs' => hs (hseen i (.inl hs')))
  joined b v hj := by
    obtain ⟨p, phi, hphi, hblock, hres⟩ := hd.joined b v hj
    obtain ⟨phi', hphi', hshape, -⟩ := hk.phi p phi hphi
    obtain ⟨hblock', hres', -⟩ := Phi.mk.inj hshape
    exact ⟨p, phi', hphi', hblock'.trans hblock, hres'.trans hres⟩

theorem congr {seen' : InstId → Prop} (hd : Dissolving f cell joins seen h)
    (hseen : ∀ i, seen' i ↔ seen i) : Dissolving f cell joins seen' h :=
  hd.step hd.stage (.refl _ (fun _ => False) _) (fun i hi => .inl ((hseen i).1 hi))
    fun i hi => (hseen i).2 (hi.elim id False.elim)

theorem contains_of_lasting (hd : Dissolving f cell joins seen h) (hv : Lasting f cell joins v) :
    h.values.contains v = true := by
  rcases hv with ⟨hlive, hlast⟩ | ⟨b, hj⟩
  · refine Option.isSome_iff_ne_none.2 fun hnone => ?_
    obtain ⟨i, inst, hi, hr, hgone⟩ := hd.stage.stays v hlive hnone
    exact hlast i inst hi hr (hd.stage.gone i inst hi hgone)
  · obtain ⟨p, phi, hphi, -, rfl⟩ := hd.joined b v hj
    obtain ⟨val, hval, -⟩ := hd.stage.sound.linked.phi_result p phi hphi
    exact Option.isSome_iff_exists.2 ⟨val, hval⟩

/-- A live value that is available where all accesses have been seen lasts. -/
theorem lasting_of_available (hp : Promoting f d cell joins) (hd : Dissolving f cell joins seen h)
    (hcleared : Cleared f cell seen t) (hv : h.values.contains v = true)
    (havail : Available f joins v t) (hne : v ≠ cell.value) : Lasting f cell joins v := by
  obtain ⟨val, hval⟩ := Option.isSome_iff_exists.1 hv
  rcases hd.stage.value_cases hp hval with ⟨old, hold, hdef⟩ | ⟨p, phi, -, -, -, -, hjoin⟩
  · refine .inl ⟨Option.isSome_iff_exists.2 ⟨old, hold⟩, fun i inst hi hr hdis => ?_⟩
    rcases hdis with heq | ⟨hc, hop⟩
    · have hcell := (hp.creation_iff (e := (i, inst)) hi).1 heq
      exact hne (Option.some.inj (hr.symm.trans hcell))
    · obtain ⟨k, hk⟩ := hp.sound.linked.exists_getElem?_instsOf hi
      have hseen := hcleared _ _ _ hk hc (havail _ (.inst hk hr))
      have hgone := hd.stage.gone_of_freed hp hi hc hop (hd.freed i hseen)
      obtain ⟨old', hold', hdef'⟩ := hp.sound.linked.inst_result i inst v hi hr
      obtain rfl := Option.some.inj (hold.symm.trans hold')
      obtain ⟨inst', hi', -⟩ := hd.stage.sound.linked.inst_origin v val i hval
        (hdef.symm.trans hdef')
      rw [hgone] at hi'
      cases hi'
  · exact .inr ⟨_, hjoin⟩

end Dissolving

theorem Cell.Lasting.ne_of_dissolves (hp : Promoting f d cell joins) (hv : Lasting f cell joins v)
    {i : InstId} {inst : Inst} (hi : f.insts.get? i = some inst) (hr : inst.result = some w)
    (hdis : cell.Dissolves i inst) : w ≠ v := by
  rintro rfl
  rcases hv with ⟨-, hlast⟩ | ⟨b, hj⟩
  · exact hlast i inst hi hr hdis
  · obtain ⟨val, hval, -⟩ := hp.sound.linked.inst_result i inst w hi hr
    rw [hp.join_fresh b w hj] at hval
    cases hval

/-- What a load of the cell yields may be replaced by a copy of the content. -/
theorem Promoting.same_load_of_available (hp : Promoting f d cell joins) (hb : f.Reachable b)
    (hk : (f.instsOf b)[k]? = some e) (hop : e.2.opcode = .getRef)
    (hhead : e.2.operands.head? = some cell.value) (hr : e.2.result = some w)
    (hv : Copies f cell joins ⟨b, k⟩ v) (ht : Available f joins w t) :
    Same f cell joins t w v :=
  hp.same_of_before (s := ⟨b, k + 1⟩) (List.getElem?_eq_some_iff.1 hk).1
    (hp.same_load hb hk hop hhead hr hv) (ht _ (.inst hk hr))

theorem getElem?_foldl_set {α : Type} (v : α) (ns : List Nat) (as : List α) (n : Nat) :
    (ns.foldl (fun as n => as.set n v) as)[n]? =
      if n ∈ ns then as[n]?.map fun _ => v else as[n]? := by
  induction ns generalizing as with
  | nil => simp
  | cons m ns ih =>
    rw [List.foldl_cons, ih, List.getElem?_set']
    by_cases hmn : m = n
    · subst hmn
      simp [Function.const_def]
    · simp [hmn, Ne.symm hmn]

section Use

variable (hp : Promoting f d cell joins) (hd : Dissolving f cell joins seen h)
  (hk : (f.instsOf b)[k]? = some e) (hb : f.Reachable b)

include hp hd hk hb

/-- A load goes, and its result is the carried value from now on. -/
theorem Dissolving.load_ensures (hne : e.1 ≠ cell.creation)
    (hv : Copies f cell joins ⟨b, k⟩ current) (hlast : Lasting f cell joins current)
    {data : Inst} (hdata : h.insts.get? e.1 = some data) (hop : e.2.opcode = .getRef)
    (hhead : e.2.operands.head? = some cell.value) :
    (do
      match data.result with
      | some result => discard (Edit.replaceAllUses result current)
      | none => pure ()
      Edit.removeInst e.1
      return current : Edit ValueId).Ensures h fun next g =>
        Dissolving f cell joins (fun i => seen i ∨ i = e.1) g ∧ next = current ∧
          h.KeepsPhis g := by
  obtain ⟨-, -, -, hi⟩ := Func.mem_instsOf.1 (List.mem_of_getElem? hk)
  obtain ⟨inst, hi', hshape, -⟩ := hd.stage.inst e.1 data hdata
  obtain rfl := Option.some.inj (hi.symm.trans hi')
  obtain ⟨-, -, hres, -⟩ := Inst.mk.inj hshape
  have hdis : cell.Dissolves e.1 e.2 := .inr ⟨List.mem_of_mem_head? hhead, .inl hop⟩
  -- The load goes once nothing uses its result.
  have hremove : ∀ g, Stage f cell joins g → h.Keeps cell.value (fun _ => False) g →
      (∀ v u, e.2.result = some v → g.held v u = 0) →
      (do Edit.removeInst e.1; return current : Edit ValueId).Ensures g fun next g =>
        Dissolving f cell joins (fun i => seen i ∨ i = e.1) g ∧ next = current ∧
          h.KeepsPhis g := by
    intro g hg hkeep hunused
    have hlive := hkeep.inst e.1 id (Option.isSome_iff_exists.2 ⟨data, hdata⟩)
    refine .bind (hg.removeInst_ensures hp.toPromotable hi hlive hdis hunused) ?_
    rintro _ g' ⟨hg', hkeep', hinsts, -⟩
    have hd' : Dissolving f cell joins seen g :=
      hd.step hg hkeep (fun i => .inl) fun i hi => hi.elim id False.elim
    refine .pure ⟨hd'.step hg' hkeep' (fun i hi => hi.imp_right ?_) fun i hi => hi, rfl,
      hkeep.phi.trans hkeep'.phi⟩
    rintro rfl
    rw [Func.held_inst, hinsts, Arena.get?_erase, if_pos rfl]
    rfl
  cases hr : data.result with
  | none =>
    refine hremove h hd.stage (.refl _ _ _) fun v u hv => ?_
    rw [← hres, hr] at hv
    cases hv
  | some r =>
    have hr' : e.2.result = some r := hres.symm.trans hr
    have hne' : r ≠ current := hlast.ne_of_dissolves hp hi hr' hdis
    have hrc : r ≠ cell.value := fun hrc => hne ((hp.creation_iff hi).2 (hrc ▸ hr'))
    obtain ⟨val, hval, -⟩ := hd.stage.sound.linked.inst_result e.1 data r hdata hr
    refine .bind (.discard ((hd.stage.replaceAllUses_ensures (fun _ => False)
      (Option.isSome_iff_exists.2 ⟨val, hval⟩) (hd.contains_of_lasting hlast) hrc hv.ne
      fun t ht => hp.same_load_of_available hb hk hop hhead hr' hv ht))) ?_
    rintro _ g ⟨hg, hkeep, -, hunused⟩
    refine hremove g hg hkeep fun v u hv => ?_
    obtain rfl := Option.some.inj (hr'.symm.trans hv)
    exact hunused hne' u

theorem Dissolving.store_ensures (hcleared : Cleared f cell seen ⟨b, k⟩) {data : Inst}
    (hdata : h.insts.get? e.1 = some data) (hop : e.2.opcode = .setRef)
    (hhead : e.2.operands.head? = some cell.value) :
    (match data.operands[1]? with
      | none => throw (.invariant (.storesNothing e.1))
      | some stored => do
        Edit.removeInst e.1
        return stored : Edit ValueId).Ensures h fun next g =>
        Dissolving f cell joins (fun i => seen i ∨ i = e.1) g ∧
          Copies f cell joins ⟨b, k + 1⟩ next ∧ Lasting f cell joins next ∧ h.KeepsPhis g := by
  obtain ⟨-, -, -, hi⟩ := Func.mem_instsOf.1 (List.mem_of_getElem? hk)
  obtain ⟨inst, hi', hshape, hreads⟩ := hd.stage.inst e.1 data hdata
  obtain rfl := Option.some.inj (hi.symm.trans hi')
  have hblock := hp.sound.linked.block_of_instsOf (List.mem_of_getElem? hk)
  obtain ⟨harity, hresult⟩ := hp.formed _ _ hi
  rw [hop] at harity hresult
  obtain ⟨c, w, hops⟩ := List.length_eq_two.1 (beq_iff_eq.1 harity)
  rw [hblock, hops] at hreads
  obtain ⟨c', rest, -, hrest, hdataOps⟩ := List.forall₂_cons_left_iff.1 (hreads k hk hb)
  obtain ⟨w', rest', hread, -, rfl⟩ := List.forall₂_cons_left_iff.1 hrest
  have hsame : Same f cell joins ⟨b, k⟩ w w' := by
    rcases hread with hsame | ⟨⟨proto, hclosure⟩, -⟩
    · exact hsame
    · simp [hop] at hclosure
  have hstores : cell.Stores e.2 w := ⟨hop, hhead, by rw [hops]; rfl⟩
  have hcopies := hp.copies_store hb hk hstores hsame
  have hdis : cell.Dissolves e.1 e.2 := .inr ⟨List.mem_of_mem_head? hhead, .inr hop⟩
  rw [hdataOps]
  have hlive : h.insts.contains e.1 = true := Option.isSome_iff_exists.2 ⟨data, hdata⟩
  refine .bind (hd.stage.removeInst_ensures hp.toPromotable hi hlive hdis fun v u hv => ?_) ?_
  · rw [hv] at hresult
    cases hresult
  · rintro _ g ⟨hg, hkeep, hinsts, -⟩
    refine .pure ⟨hd.step hg hkeep (fun i hi => hi.imp_right ?_) fun i hi => hi, hcopies, ?_,
      hkeep.phi⟩
    · rintro rfl
      rw [Func.held_inst, hinsts, Arena.get?_erase, if_pos rfl]
      rfl
    · refine hd.lasting_of_available hp hcleared ?_ hsame.right hcopies.ne
      exact hd.stage.slots.operand _ _ w' hdata (by rw [hdataOps]; simp)

theorem Dissolving.capture_ensures (hv : Copies f cell joins ⟨b, k⟩ current)
    (hlast : Lasting f cell joins current) {data : Inst} (hdata : h.insts.get? e.1 = some data)
    {proto : Nat} (hop : e.2.opcode = .closure proto) :
    (do
      (data.operands.zipIdx.filter fun o => o.1 = cell.value).forM fun o =>
        Edit.setOperand e.1 o.2 current
      return current : Edit ValueId).Ensures h fun next g =>
        Dissolving f cell joins (fun i => seen i ∨ i = e.1) g ∧ next = current ∧
          h.KeepsPhis g := by
  let places := data.operands.zipIdx.filter fun o => o.1 = cell.value
  have hmem : ∀ n, n ∈ places.map (·.2) ↔ data.operands[n]? = some cell.value := by
    intro n
    simp [places, List.mem_zipIdx_iff_getElem?]
  have hnodup : (places.map (·.2)).Nodup := by
    refine List.Nodup.sublist (List.filter_sublist.map _) ?_
    rw [List.zipIdx_map_snd]
    exact List.nodup_range'
  -- The places are different, so the next one still holds the cell after some have been set.
  let after (done : List (ValueId × Nat)) : Inst :=
    { data with operands := (done.map (·.2)).foldl (fun as n => as.set n current) data.operands }
  refine .bind (.forM (I := fun done g => Stage f cell joins g ∧
    h.Keeps cell.value (fun _ => False) g ∧ g.insts.get? e.1 = some (after done)) places
    ?_ ⟨hd.stage, .refl _ _ _, hdata⟩) ?_
  · rintro done o rest hsplit g ⟨hg, hkeep, hget⟩
    have hold : data.operands[o.2]? = some cell.value := (hmem _).1 (by simp [hsplit])
    have hcell : (after done).operands[o.2]? = some cell.value := by
      rw [getElem?_foldl_set, if_neg (notMem_done hnodup (by rw [hsplit, List.map_append]; rfl)),
        hold]
    have hd' : Dissolving f cell joins seen g :=
      hd.step hg hkeep (fun i => .inl) fun i hi => hi.elim id False.elim
    refine (hg.setOperand_ensures hp (fun _ => False) hk ⟨proto, hop⟩ hget hcell
      (hd.stage.getElem?_cell hp hk hb hdata hold) (hd'.contains_of_lasting hlast) hv).imp ?_
    rintro _ g' ⟨hg', hkeep', hget'⟩
    refine ⟨hg', hkeep.trans hkeep', hget'.trans ?_⟩
    simp [after]
  · rintro _ g ⟨hg, hkeep, hget⟩
    refine .pure ⟨hd.step hg hkeep (fun i hi => hi.imp_right ?_)
      (fun i hi => hi.elim .inl False.elim), rfl, hkeep.phi⟩
    rintro rfl
    rw [Func.held_inst, hget]
    refine List.count_eq_zero.2 fun hin => ?_
    obtain ⟨n, hn⟩ := List.getElem?_of_mem hin
    rw [getElem?_foldl_set] at hn
    split at hn
    · obtain ⟨-, -, heq⟩ := Option.map_eq_some_iff.1 hn
      exact hv.ne heq
    · exact absurd ((hmem n).2 hn) ‹_›

theorem Dissolving.dissolveUse_ensures (hpending : ¬ seen e.1) (hne : e.1 ≠ cell.creation)
    (hv : Copies f cell joins ⟨b, k⟩ current) (hlast : Lasting f cell joins current)
    (hcleared : e.2.opcode = .setRef → Cleared f cell seen ⟨b, k⟩) :
    (Edit.dissolveUse cell.value current e.1).Ensures h fun next g =>
      Dissolving f cell joins (fun i => seen i ∨ i = e.1) g ∧
        Copies f cell joins ⟨b, k + 1⟩ next ∧ Lasting f cell joins next ∧ h.KeepsPhis g := by
  obtain ⟨-, -, -, hi⟩ := Func.mem_instsOf.1 (List.mem_of_getElem? hk)
  obtain ⟨data, hdata⟩ := Option.isSome_iff_exists.1
    (hd.pending e.1 (Option.isSome_iff_exists.2 ⟨_, hi⟩) hpending)
  obtain ⟨inst, hi', hshape, -⟩ := hd.stage.inst e.1 data hdata
  obtain rfl := Option.some.inj (hi.symm.trans hi')
  obtain ⟨hopcode, -⟩ := Inst.mk.inj hshape
  refine .query_bind (Func.inst_eq_ok.2 hdata) ?_
  have hkeep : (∀ w, ¬ cell.Stores e.2 w) → Copies f cell joins ⟨b, k + 1⟩ current :=
    fun hstore => hp.copies_keep hv hk hne hstore
  by_cases hc : cell.value ∈ data.operands
  · rw [if_neg (by simpa using hc)]
    rcases hp.access hi (hd.stage.mem_operands hi hdata hc) with
      ⟨hop, hhead⟩ | ⟨hop, hhead, -⟩ | ⟨proto, hop⟩
    · have hcopies := hkeep fun w hw => absurd hw.1 (by simp [hop])
      rw [hopcode, hop]
      refine (hd.load_ensures hp hk hb hne hv hlast hdata hop hhead).imp ?_
      rintro _ g ⟨hg, rfl, hphis⟩
      exact ⟨hg, hcopies, hlast, hphis⟩
    · rw [hopcode, hop]
      exact hd.store_ensures hp hk hb (hcleared hop) hdata hop hhead
    · have hcopies := hkeep fun w hw => absurd hw.1 (by simp [hop])
      rw [hopcode, hop]
      refine (hd.capture_ensures hp hk hb hv hlast hdata hop).imp ?_
      rintro _ g ⟨hg, rfl, hphis⟩
      exact ⟨hg, hcopies, hlast, hphis⟩
  · rw [if_pos (by simpa using hc)]
    have hzero : h.held cell.value (.inst e.1) = 0 := by
      rw [Func.held_inst, hdata]
      exact List.count_eq_zero.2 hc
    refine .pure ⟨hd.step hd.stage (.refl _ (fun _ => False) _) (fun i hi => hi.imp_right ?_)
      (fun i hi => hi.elim .inl False.elim), hkeep fun w hw => ?_, hlast, .refl h⟩
    · rintro rfl
      exact hzero
    · have hgone := hd.stage.gone_of_freed hp hi (List.mem_of_mem_head? hw.2.1) (.inr hw.1) hzero
      rw [hdata] at hgone
      cases hgone

end Use

end Midend
