import Midend.Proofs.Promotion.Captures

namespace Midend

open Verdict

/-- A load from the cell, a store of something else into it, or a closure. -/
def Inst.Accesses (inst : Inst) (cell : ValueId) : Prop :=
  match inst.opcode with
  | .getRef => inst.operands.head? = some cell
  | .setRef => inst.operands.head? = some cell ∧ inst.operands[1]? ≠ some cell
  | .closure _ => True
  | _ => False

theorem Inst.accesses_iff {inst : Inst} {cell : ValueId} (i : InstId) :
    inst.Accesses cell ↔ ∃ u : CellUse, u.inst = i ∧ u.Fits cell inst := by
  unfold Accesses
  constructor
  · intro h
    split at h
    · exact ⟨.load i, rfl, ‹_›, h⟩
    · exact ⟨.store i, rfl, ‹_›, h⟩
    · exact ⟨.capture i, rfl, _, ‹_›⟩
    · exact h.elim
  · rintro ⟨u, -, hfits⟩
    cases u with
    | load => simpa [hfits.1] using hfits.2
    | store => simpa [hfits.1] using hfits.2
    | capture =>
      obtain ⟨proto, hop⟩ := hfits
      simp [hop]

namespace Func

/-- The cell of a creation in reachable code, which nothing but accesses in reachable code consumes.
If closures capture it and that is allowed, then no other consumer can come after one of them. -/
structure Replaceable (f : Func) (captured : Bool) (i : InstId) (cell : ValueId) : Prop where
  creation : ∃ inst, f.insts.get? i = some inst ∧ inst.opcode = .newRef ∧ inst.result = some cell ∧
    f.toFlowGraph.Reaches f.entry inst.block
  phi : ∀ p phi q, f.phis.get? p = some phi → phi.source q ≠ some cell
  consumer : ∀ j inst, f.insts.get? j = some inst → cell ∈ inst.operands →
    f.toFlowGraph.Reaches f.entry inst.block ∧ inst.Accesses cell
  captures : (∀ c inst proto, f.insts.get? c = some inst → cell ∈ inst.operands →
      inst.opcode ≠ .closure proto) ∨
    captured = true ∧ ∀ c inst proto, f.insts.get? c = some inst → cell ∈ inst.operands →
      inst.opcode = .closure proto → ∀ j other, f.insts.get? j = some other →
      cell ∈ other.operands → j ≠ c → ¬ f.MayFollow c j

variable {f : Func} {d : Dominance} {captured : Bool} {i : InstId} {cell : ValueId}

theorem isCapture_iff {u : CellUse} {inst : Inst} (hfits : u.Fits cell inst) :
    u.isCapture = true ↔ ∃ proto, inst.opcode = .closure proto := by
  cases u with
  | load => simp [CellUse.isCapture, hfits.1]
  | store => simp [CellUse.isCapture, hfits.1]
  | capture =>
    obtain ⟨proto, hop⟩ := hfits
    simp [CellUse.isCapture, hop]

theorem replaceable_of_accepts (hf : f.Sound) (hd : d.IsOf f) {c : Cell}
    (h : Accepts (f.promotable captured d i) c) : f.Replaceable captured i c.value := by
  have hreaches : ∀ b, d.isReachable b = true → f.toFlowGraph.Reaches f.entry b := fun b hb =>
    hf.linked.reaches_iff.2 (hd.isReachable_iff.1 hb)
  obtain ⟨rfl, hin⟩ := promotable_accepts hf h
  obtain ⟨-, -, -, -, -, -, -, -, -, -, -, hfinal⟩ := promotable_accepts_iff.1 h
  -- The use of each consumer, found by its instruction.
  have huse : ∀ j inst, f.insts.get? j = some inst → c.value ∈ inst.operands →
      ∃ u ∈ c.uses, u.inst = j ∧ d.isReachable inst.block = true ∧ u.Fits c.value inst := by
    intro j inst hj hmem
    obtain ⟨u, hu, rfl⟩ := hin.listed j inst hj hmem
    obtain ⟨inst', hi', hreach, -, hfits⟩ := hin.use u hu
    obtain rfl := Option.some.inj (hj.symm.trans hi')
    exact ⟨u, hu, rfl, hreach, hfits⟩
  obtain ⟨inst, hi, hop, hres, -, hblock⟩ := hin.creation
  refine ⟨⟨inst, hi, hop, hres, hreaches _ (hblock ▸ hin.home_reachable)⟩, hin.source,
    fun j other hj hmem => ?_, ?_⟩
  · obtain ⟨u, -, rfl, hreach, hfits⟩ := huse j other hj hmem
    exact ⟨hreaches _ hreach, (Inst.accesses_iff u.inst).2 ⟨u, rfl, hfits⟩⟩
  · by_cases hany : c.uses.any CellUse.isCapture = true
    · obtain ⟨hcaptured, hfinal⟩ := hfinal hany
      refine .inr ⟨hcaptured, fun k closure proto hk hmem hclosure j other hj hmem' hne => ?_⟩
      obtain ⟨u, hu, rfl, -, hfits⟩ := huse k closure hk hmem
      obtain ⟨w, hw, rfl, -⟩ := huse j other hj hmem'
      refine (hf.linked.capturesAreFinal_iff hd fun x hx => ?_).1 hfinal u hu
        ((isCapture_iff hfits).2 ⟨proto, hclosure⟩) w hw hne
      obtain ⟨inst, hi, hreach, -⟩ := hin.use x hx
      exact ⟨inst, hi, hd.isReachable_iff.1 hreach⟩
    · refine .inl fun k closure proto hk hmem hclosure => hany ?_
      obtain ⟨u, hu, -, -, hfits⟩ := huse k closure hk hmem
      exact List.any_eq_true.2 ⟨u, hu, (isCapture_iff hfits).2 ⟨proto, hclosure⟩⟩

theorem Replaceable.exists_accepts (h : f.Replaceable captured i cell) (hf : f.Sound)
    (hformed : f.Formed) (hd : d.IsOf f) : ∃ c, Accepts (f.promotable captured d i) c := by
  have hreachable : ∀ b, f.toFlowGraph.Reaches f.entry b → d.isReachable b = true := fun b hb =>
    hd.isReachable_iff.2 (hf.linked.reaches_iff.1 hb)
  obtain ⟨inst, hi, hop, hres, hreach⟩ := h.creation
  obtain ⟨initial, hinitial⟩ : ∃ v, inst.operands.head? = some v := by
    have harity := (hformed i inst hi).arity
    rw [hop] at harity
    cases hargs : inst.operands with
    | nil => simp [hargs, Opcode.arity, Arity.accepts] at harity
    | cons v rest => exact ⟨v, rfl⟩
  obtain ⟨val, hval, -⟩ := hf.linked.inst_result i inst cell hi hres
  have huser : ∀ u ∈ val.users, ∃ use, Accepts (f.cellUse d cell u.1) use := by
    rintro ⟨user, n⟩ hu
    obtain ⟨hcount, hpos⟩ := (Value.mem_users_iff (hf.uses.counted cell val hval)).1 hu
    rw [← hcount, hf.uses.uses cell val user hval] at hpos
    cases user with
    | phi p =>
      obtain ⟨phi, q, hp, hq⟩ := source_of_held hpos
      exact absurd hq (h.phi p phi q hp)
    | inst j =>
      obtain ⟨other, hj, hmem⟩ := operand_of_held hpos
      obtain ⟨hreach, haccess⟩ := h.consumer j other hj hmem
      obtain ⟨use, rfl, hfits⟩ := (Inst.accesses_iff j).1 haccess
      exact ⟨use, cellUse_accepts_of hj (hreachable _ hreach) hfits⟩
  obtain ⟨uses, huses⟩ := exists_accepts_mapM huser
  have hin : Cell.IsIn ⟨i, cell, initial, inst.block, uses⟩ f d :=
    isIn_of_uses hf hi hop hres hinitial rfl (hreachable _ hreach) hval (accepts_mapM huses)
  refine ⟨⟨i, cell, initial, inst.block, uses⟩, promotable_accepts_iff.2 ⟨rfl, inst, val, hi, hop,
    hres, hinitial, rfl, hreachable _ hreach, hval, huses, fun hany => ?_⟩⟩
  obtain ⟨u, hu, hcapture⟩ := List.any_eq_true.1 hany
  obtain ⟨closure, hclosure, -, hmem, hfits⟩ := hin.use u hu
  obtain ⟨proto, hop'⟩ := (isCapture_iff hfits).1 hcapture
  rcases h.captures with hnone | ⟨hcaptured, hfinal⟩
  · exact absurd hop' (hnone _ closure proto hclosure hmem)
  · refine ⟨hcaptured, (hf.linked.capturesAreFinal_iff hd fun w hw => ?_).2 ?_⟩
    · obtain ⟨other, hother, hreach, -⟩ := hin.use w hw
      exact ⟨other, hother, hd.isReachable_iff.1 hreach⟩
    · intro c hc hccapture w hw hne
      obtain ⟨capturing, hcapturing, -, hcmem, hcfits⟩ := hin.use c hc
      obtain ⟨proto, hcop⟩ := (isCapture_iff hcfits).1 hccapture
      obtain ⟨other, hother, -, hwmem, -⟩ := hin.use w hw
      exact hfinal _ capturing proto hcapturing hcmem hcop _ other hother hwmem hne

end Func

/-- A cell is promoted exactly if it is replaceable. -/
theorem Edit.promoteCell_promoted_iff (f : Func) (hf : f.Built) (hv : (verify.apply f).1 = .ok ())
    (captured : Bool) (i : InstId) (hi : f.insts.contains i = true) :
    (∃ how g, (promoteCell captured i).apply f = (.ok (.promoted how), g)) ↔
      ∃ cell, f.Replaceable captured i cell := by
  constructor
  · rintro ⟨how, g, h⟩
    obtain ⟨d, cell, joins, -, hp, haccepts⟩ := promoting_of_promoteCell hf hv h
    obtain ⟨hcreation, hphi, hconsumer, hcaptures⟩ :=
      Func.replaceable_of_accepts hp.sound hp.verified.dominance haccepts
    exact ⟨cell.value, hcreation, hphi, hconsumer, hcaptures⟩
  · rintro ⟨cell, hcreation, hphi, hconsumer, hcaptures⟩
    obtain ⟨d, ha, hcases⟩ := promoteCell_cases hf hv captured hi
    have hr : Func.Replaceable { f with dominance := some d } captured i cell :=
      ⟨hcreation, hphi, hconsumer, hcaptures⟩
    obtain ⟨c, hc⟩ := hr.exists_accepts ha.sound ha.formed ha.verified.dominance
    rcases hcases with ⟨why, hwhy, -⟩ | ⟨c', -, -, hp, hrun⟩
    · cases hc.symm.trans hwhy
    · obtain ⟨-, g, hrun', ⟨how, rfl⟩, -⟩ := hp.takeOut_ensures
      exact ⟨how, g, hrun.trans hrun'⟩

/-- A cell that is stored into and captured at last. -/
def capturedLast : List Call :=
  [.addArgument, .appendValue ⟨0⟩ .newRef [⟨0⟩], .append ⟨0⟩ .setRef [⟨1⟩, ⟨0⟩],
    .appendValue ⟨0⟩ (.closure 0) [⟨1⟩], .append ⟨0⟩ .ret []]

/-- It is replaceable if captured cells may be, and is no more so with a load behind the closure. -/
theorem Edit.capturedLast_replaceable :
    ∃ f g : Func, f.Built ∧ g.Built ∧ (∃ cell, f.Replaceable true ⟨0⟩ cell) ∧
      (¬ ∃ cell, f.Replaceable false ⟨0⟩ cell) ∧ ¬ ∃ cell, g.Replaceable true ⟨0⟩ cell := by
  let more : List Call := capturedLast.dropLast ++
    [.appendValue ⟨0⟩ .getRef [⟨1⟩], .append ⟨0⟩ .ret []]
  let f : Func := capturedLast.foldl (fun f c => c.run f) (Func.new "f")
  let g : Func := more.foldl (fun f c => c.run f) (Func.new "f")
  have hf : f.Built := ⟨"f", capturedLast, rfl⟩
  have hg : g.Built := ⟨"f", more, rfl⟩
  have hfv : (verify.apply f).1 = .ok () := by decide +kernel
  have hgv : (verify.apply g).1 = .ok () := by decide +kernel
  have hfi : f.insts.contains ⟨0⟩ = true := by decide +kernel
  have hgi : g.insts.contains ⟨0⟩ = true := by decide +kernel
  have hyes : ((promoteCell true ⟨0⟩).apply f).1 = .ok (.promoted .inBlock) := by decide +kernel
  have hno : ((promoteCell false ⟨0⟩).apply f).1 = .ok (.skipped .captured) := by decide +kernel
  have hlate : ((promoteCell true ⟨0⟩).apply g).1 = .ok (.skipped .usedAfterCapture) := by
    decide +kernel
  have hreplaceable := fun captured => promoteCell_promoted_iff f hf hfv captured ⟨0⟩ hfi
  refine ⟨f, g, hf, hg, (hreplaceable true).1 ?_, fun h => ?_, fun h => ?_⟩
  · rcases hrun : (promoteCell true ⟨0⟩).apply f with ⟨out, k⟩
    rw [hrun] at hyes
    obtain rfl : out = _ := hyes
    exact ⟨.inBlock, k, rfl⟩
  · obtain ⟨how, k, hrun⟩ := (hreplaceable false).2 h
    rw [hrun] at hno
    cases Except.ok.inj hno
  · obtain ⟨how, k, hrun⟩ := (promoteCell_promoted_iff g hg hgv true ⟨0⟩ hgi).2 h
    rw [hrun] at hlate
    cases Except.ok.inj hlate

end Midend
