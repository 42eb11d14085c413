import Midend.Proofs.Edit.Replace
import Midend.Proofs.Func.BlockGraph

namespace Midend

namespace Func

variable {f g : Func} {loose : User → Prop}

/-- Linked without loose users, with use lists that agree and an up-to-date dominance. -/
structure Sound (f : Func) : Prop where
  linked : f.Linked fun _ => False
  uses : f.UsesAgree
  coherent : f.Coherent

theorem terminatorOpcode?_eq_some_last {b : BlockId} {op : Opcode} :
    f.terminatorOpcode? b = some op ↔ ∃ data i inst, f.blocks.get? b = some data ∧
      data.last = some i ∧ f.insts.get? i = some inst ∧ inst.isTerminator = true ∧
      inst.opcode = op := by
  simp [terminatorOpcode?, bind, Option.bind_eq_some_iff]

theorem Linked.terminatorOpcode?_eq_some (h : f.Linked loose) {b : BlockId} {op : Opcode} :
    f.terminatorOpcode? b = some op ↔ ∃ data i inst, f.blocks.get? b = some data ∧
      i ∈ data.insts ∧ f.insts.get? i = some inst ∧ inst.isTerminator = true ∧ inst.opcode = op := by
  rw [terminatorOpcode?_eq_some_last]
  constructor
  · rintro ⟨data, i, inst, hb, hlast, hinst⟩
    exact ⟨data, i, inst, hb, List.mem_of_getLast? hlast, hinst⟩
  · rintro ⟨data, i, inst, hb, hmem, hi, hterm, hop⟩
    exact ⟨data, i, inst, hb, h.terminator_last b data i inst hb hmem hi hterm, hi, hterm, hop⟩

/-- Functions whose blocks list the same terminators have the same edges. -/
theorem Linked.successors_congr {loose' : User → Prop} (hf : f.Linked loose) (hg : g.Linked loose')
    {b : BlockId} (h : ∀ op : Opcode, (∃ data i inst, f.blocks.get? b = some data ∧
      i ∈ data.insts ∧ f.insts.get? i = some inst ∧ inst.isTerminator = true ∧ inst.opcode = op) ↔
      ∃ data i inst, g.blocks.get? b = some data ∧ i ∈ data.insts ∧ g.insts.get? i = some inst ∧
        inst.isTerminator = true ∧ inst.opcode = op) :
    g.successors b = f.successors b := by
  have hop : g.terminatorOpcode? b = f.terminatorOpcode? b := by
    refine Option.ext fun op => ?_
    rw [hg.terminatorOpcode?_eq_some, hf.terminatorOpcode?_eq_some, h]
  rw [successors, hop, successors]

theorem isTerminator_of_mem_targets {op : Opcode} {t : BlockId} (h : t ∈ op.targets) :
    op.isTerminator = true := by
  cases op <;> simp_all [Opcode.targets, Opcode.isTerminator]

theorem Linked.mem_successors (h : f.Linked loose) {i : InstId} {inst : Inst} {t : BlockId}
    (hi : f.insts.get? i = some inst) (hl : ¬ loose (.inst i)) (ht : t ∈ inst.opcode.targets) :
    (∃ data, f.blocks.get? inst.block = some data ∧ i ∈ data.insts) ∧
      t ∈ f.successors inst.block := by
  obtain ⟨data, hb, hmem⟩ := h.inst_listed i inst hi hl
  have hop : f.terminatorOpcode? inst.block = some inst.opcode :=
    h.terminatorOpcode?_eq_some.2 ⟨data, i, inst, hb, hmem, hi, isTerminator_of_mem_targets ht, rfl⟩
  refine ⟨⟨data, hb, hmem⟩, ?_⟩
  rw [successors, hop]
  exact ht

theorem Linked.successor_live (h : f.Linked fun _ => False) {b s : BlockId}
    (hs : s ∈ f.successors b) : ∃ data, f.blocks.get? s = some data := by
  cases hop : f.terminatorOpcode? b with
  | none => simp [successors, hop] at hs
  | some op =>
    obtain ⟨data, i, inst, -, -, hi, -, rfl⟩ := h.terminatorOpcode?_eq_some.1 hop
    rw [successors, hop] at hs
    exact h.target_live i inst s hi id hs

theorem Linked.live_of_isReachable (hf : f.Linked loose) {d : Dominance} (hd : d.IsOf f)
    {b : BlockId} (h : d.isReachable b = true) : ∃ data, f.blocks.get? b = some data := by
  obtain ⟨path, hpath⟩ := hd.isReachable_iff.1 h
  cases hpath with
  | start => exact hf.entry_live
  | step _ hs => exact hasBlock_iff.1 (mem_blockGraph_successorsOf.1 hs).2.1

theorem Linked.index_lt (hf : f.Linked loose) {d : Dominance} (hd : d.IsOf f) {b : BlockId}
    (h : d.isReachable b = true) : b.index < f.blocks.size :=
  hasBlock_lt (hasBlock_iff.2 (hf.live_of_isReachable hd h))

theorem SameShape.successors (h : f.SameShape g) (b : BlockId) :
    g.successors b = f.successors b := by
  have hop : g.terminatorOpcode? b = f.terminatorOpcode? b := by
    simp only [terminatorOpcode?, h.blocks, bind]
    refine congrArg _ (funext fun data => congrArg _ (funext fun i => ?_))
    have hi := h.inst i
    cases hf : f.insts.get? i with
    | none =>
      rw [hf] at hi
      rw [Option.map_eq_none_iff.1 hi]
    | some inst =>
      obtain ⟨inst', hg, hop, -, -⟩ := h.symm.get?_inst hf
      simp only [hg, Option.bind_some]
      show (if inst'.opcode.isTerminator then some inst'.opcode else none) = _
      rw [hop]
      rfl
  rw [Func.successors, hop, Func.successors]

theorem SameShape.blockGraph (h : f.SameShape g) : g.blockGraph = f.blockGraph :=
  blockGraph_congr h.entry (congrArg _ h.blocks) (fun b => congrArg (fun a => Arena.contains a b) h.blocks)
    fun b _ => h.successors b

theorem Sound.of_shape (h : f.Sound) (hs : f.SameShape g) (hu : g.UsesAgree) : g.Sound :=
  ⟨h.linked.congr hs, hu, h.coherent.congr hs.dominance hs.dominanceLimit hs.blockGraph⟩

theorem Sound.of_fields (h : f.Sound) (hentry : g.entry = f.entry) (hblocks : g.blocks = f.blocks)
    (hinsts : g.insts = f.insts) (hphis : g.phis = f.phis) (hvalues : g.values = f.values)
    (harg : g.arguments = f.arguments) (hg : g.Coherent) : g.Sound := by
  refine ⟨h.linked.of_fields hentry hblocks hinsts hphis hvalues harg,
    h.uses.congr hvalues fun v u => ?_, hg⟩
  cases u <;> simp only [held_inst, held_phi, hinsts, hphis]

theorem Sound.invalidateDominance (h : f.Sound) : f.invalidateDominance.Sound :=
  h.of_fields rfl rfl rfl rfl rfl rfl (.of_none rfl)

theorem new_sound (name : String) : (Func.new name).Sound := by
  have hblock : ∀ b data, (Func.new name).blocks.get? b = some data → data = {} := by
    rintro ⟨_ | k⟩ data hb
    · exact (Option.some.inj hb).symm
    · simp [Func.new, Arena.get?] at hb
  have hinst : ∀ i, (Func.new name).insts.get? i = none := fun i => by simp [Func.new, Arena.get?]
  have hphi : ∀ p, (Func.new name).phis.get? p = none := fun p => by simp [Func.new, Arena.get?]
  have hvalue : ∀ v, (Func.new name).values.get? v = none := fun v => by
    simp [Func.new, Arena.get?]
  refine ⟨?_, ?_, .of_none rfl⟩
  · constructor
    case entry_live => exact ⟨{}, rfl⟩
    case listed_inst => grind
    case listed_phi => grind
    case insts_nodup => grind
    case phis_nodup => grind
    case terminator_last => grind
    case argument_iff => simp [Func.new, Arena.get?]
    all_goals simp [hinst, hphi, hvalue]
  · refine ⟨?_, ?_, ?_⟩
    · simp [hvalue]
    · simp [hvalue]
    · intro v u _
      cases u <;> simp [held_inst, held_phi, hinst, hphi]

end Func

namespace Edit

variable {f : Func}

theorem setPhiSource_sound (h : f.Sound) (p : PhiId) (pred : BlockId) (v : ValueId) :
    ((setPhiSource p pred v).apply f).2.Sound := by
  refine (setPhiSource_yields f p pred v).imp ?_ |>.snd h
  rintro _ g ⟨val, data, phi, hv, -, hp, rfl⟩
  exact h.of_shape (.withSource _ _ _ _ _) (h.uses.withSource hp hv)

theorem removePhiSource_sound (h : f.Sound) (p : PhiId) (pred : BlockId) :
    ((removePhiSource p pred).apply f).2.Sound := by
  refine (removePhiSource_yields f p pred).imp ?_ |>.snd h
  rintro _ g ⟨phi, hp, -, rfl⟩
  exact h.of_shape (.withoutSource _ _ _ _) (h.uses.withoutSource hp)

theorem setOperand_sound (h : f.Sound) (i : InstId) (index : Nat) (v : ValueId) :
    ((setOperand i index v).apply f).2.Sound := by
  refine (setOperand_yields f i index v).imp ?_ |>.snd h
  rintro _ g ⟨val, inst, old, hv, hi, ho, rfl⟩
  split
  · exact h
  · exact h.of_shape (.withOperand _ _ _ _ _) (h.uses.withOperand hi ho hv)

theorem replaceAllUses_sound (h : f.Sound) (old new : ValueId) :
    ((replaceAllUses old new).apply f).2.Sound := by
  refine (replaceAllUses_yields h.uses old new).imp ?_ |>.snd h
  rintro _ g ⟨-, hr⟩
  exact h.of_shape hr.shape hr.uses

theorem addPhi_sound (h : f.Sound) (b : BlockId) : ((addPhi b).apply f).2.Sound := by
  refine (addPhi_yields f b).imp ?_ |>.snd h
  rintro _ g ⟨data, hb, -, rfl⟩
  refine ⟨h.linked.withPhi hb, h.uses.withPhi b, h.coherent.congr rfl rfl ?_⟩
  refine Func.blockGraph_congr rfl (Arena.size_modify ..) (fun c => Arena.contains_modify ..)
    fun c _ => ?_
  refine h.linked.successors_congr (h.linked.withPhi hb) fun op => ?_
  simp only [Func.withPhi, Func.pushValue, Arena.get?_modify_eq_some]
  grind

theorem removePhi_sound (h : f.Sound) (p : PhiId) : ((removePhi p).apply f).2.Sound := by
  refine (removePhi_yields f p fun data hp => h.linked.phi_result p data hp).imp ?_ |>.snd h
  rintro _ g ⟨data, val, hp, -, -, rfl⟩
  have hun : ∀ b d, (f.unlistPhi data.block p).blocks.get? b = some d → p ∉ d.phis := by
    intro b d hb
    simp only [Func.unlistPhi, Arena.get?_modify_eq_some] at hb
    grind [h.linked.listed_phi]
  have hl := ((h.linked.unlistPhi data.block p).dropPhi hp hun).settle (by simp) (by
    simp [Func.unlistPhi])
  have huses : (f.unlistPhi data.block p).UsesAgree :=
    h.uses.congr rfl fun v u => by cases u <;> rfl
  refine ⟨hl, huses.dropPhi hp, h.coherent.congr ?_ ?_ ?_⟩
  · simp [Func.dropPhi, Func.releaseUses_eq, Func.unlistPhi]
  · simp [Func.dropPhi, Func.releaseUses_eq, Func.unlistPhi]
  refine Func.blockGraph_congr ?_ ?_ (fun c => ?_) fun c _ => ?_
  · simp [Func.unlistPhi]
  · simp [Func.unlistPhi]
  · simp [Func.hasBlock, Func.unlistPhi]
  refine h.linked.successors_congr hl fun op => ?_
  simp only [Func.dropPhi_blocks, Func.dropPhi_insts, Func.unlistPhi, Arena.get?_modify_eq_some]
  grind

theorem removeInst_sound (h : f.Sound) (i : InstId) : ((removeInst i).apply f).2.Sound := by
  refine (removeInst_yields f i fun data v hi hv =>
    h.linked.inst_result i data v hi hv).imp ?_ |>.snd h
  rintro _ g ⟨data, hi, -, rfl⟩
  have hun : ∀ b d, (f.unlistInst data.block i).blocks.get? b = some d → i ∉ d.insts := by
    intro b d hb
    simp only [Func.unlistInst, Arena.get?_modify_eq_some] at hb
    grind [h.linked.listed_inst]
  have hl := ((h.linked.unlistInst data.block i).dropInst hi hun).settle (by
    simp [Func.unlistInst]) (by simp)
  have huses : (f.unlistInst data.block i).UsesAgree :=
    h.uses.congr rfl fun v u => by cases u <;> rfl
  have hdom : ((f.unlistInst data.block i).dropInst i data).dominance = f.dominance ∧
      ((f.unlistInst data.block i).dropInst i data).dominanceLimit = f.dominanceLimit := by
    unfold Func.dropInst
    rw [Func.releaseUses_eq]
    cases data.result <;> exact ⟨rfl, rfl⟩
  cases hterm : data.isTerminator with
  | true =>
    exact ⟨hl.of_fields rfl rfl rfl rfl rfl rfl,
      (huses.dropInst hi).congr rfl fun v u => by cases u <;> rfl, .of_none rfl⟩
  | false =>
    refine ⟨hl, huses.dropInst hi, h.coherent.congr hdom.1 hdom.2 ?_⟩
    refine Func.blockGraph_congr ?_ ?_ (fun c => ?_) fun c _ => ?_
    · simp [Func.unlistInst]
    · simp [Func.unlistInst]
    · simp [Func.hasBlock, Func.unlistInst]
    refine h.linked.successors_congr hl fun op => ?_
    simp only [Func.dropInst_blocks, Func.dropInst_insts, Func.unlistInst,
      Arena.get?_modify_eq_some, Arena.get?_erase]
    constructor
    · rintro ⟨d, j, inst, hc, hmem, hj, ht, rfl⟩
      have hji : j ≠ i := by
        rintro rfl
        obtain rfl := Option.some.inj (hi.symm.trans hj)
        exact absurd (hterm.symm.trans ht) (by simp)
      refine ⟨_, j, inst, ⟨d, hc, rfl⟩, ?_, by rw [if_neg hji, hj], ht, rfl⟩
      split
      · simpa [hji] using hmem
      · exact hmem
    · rintro ⟨_, j, inst, ⟨d, hc, rfl⟩, hmem, hj, ht, rfl⟩
      split at hj
      · cases hj
      refine ⟨d, j, inst, hc, ?_, hj, ht, rfl⟩
      split at hmem
      · exact (List.mem_filter.1 hmem).1
      · exact hmem

theorem place_sound (h : f.Sound) {b : BlockId} {data : Block} {position : Nat}
    {opcode : Opcode} {operands : List ValueId} (hb : f.blocks.get? b = some data)
    (hpos : position ≤ data.insts.length)
    (hlast : (opcode.isTerminator = false ∧ position < data.insts.length) ∨
      (f.terminator b = .ok none ∧ position = data.insts.length))
    (hc : checkOperation opcode operands f = .ok ()) :
    (place b position opcode operands f).2.Sound := by
  obtain ⟨hops, htargets⟩ := checkOperation_ok hc
  have hl := h.linked.place operands hb hpos hlast htargets
  refine ⟨hl, h.uses.place hops, ?_⟩
  cases hterm : opcode.isTerminator with
  | true => exact .of_none (by rw [place_eq, hterm]; rfl)
  | false =>
    refine h.coherent.congr (by rw [place_eq, hterm]; rfl) (by rw [place_eq]) ?_
    refine Func.blockGraph_congr (by rw [place_eq]) (by rw [place_eq]; simp)
      (fun c => by rw [place_eq]; simp [Func.hasBlock]) fun c _ => ?_
    refine h.linked.successors_congr hl fun op => ?_
    rw [place_eq]
    simp only [Arena.get?_modify_eq_some, Arena.get?_push]
    constructor
    · rintro ⟨d, j, inst, hd, hmem, hj, ht, rfl⟩
      have hjn : j ≠ f.insts.next := by
        rintro rfl
        rw [Arena.get?_next] at hj
        cases hj
      refine ⟨_, j, inst, ⟨d, hd, rfl⟩, ?_, by rw [if_neg hjn, hj], ht, rfl⟩
      split
      · subst c
        obtain rfl := Option.some.inj (hb.symm.trans hd)
        exact (List.mem_insertIdx hpos).2 (.inr hmem)
      · exact hmem
    · rintro ⟨_, j, inst, ⟨d, hd, rfl⟩, hmem, hj, ht, rfl⟩
      split at hj
      · obtain rfl := Option.some.inj hj
        exact absurd (hterm.symm.trans ht) (by simp)
      · rename_i hjn
        refine ⟨d, j, inst, hd, ?_, hj, ht, rfl⟩
        split at hmem
        · subst c
          obtain rfl := Option.some.inj (hb.symm.trans hd)
          exact ((List.mem_insertIdx hpos).1 hmem).resolve_left hjn
        · exact hmem

theorem append_sound (h : f.Sound) (b : BlockId) (opcode : Opcode) (operands : List ValueId) :
    ((append b opcode operands).apply f).2.Sound := by
  refine (append_yields f b opcode operands).imp ?_ |>.snd h
  rintro i g ⟨data, hb, hopen, hc, hg⟩
  obtain ⟨-, rfl⟩ := Prod.mk.inj hg
  exact place_sound h hb (Nat.le_refl _) (.inr ⟨hopen, rfl⟩) hc

theorem insertBefore_sound (h : f.Sound) (before : InstId) (opcode : Opcode)
    (operands : List ValueId) : ((insertBefore before opcode operands).apply f).2.Sound := by
  refine (insertBefore_yields f before opcode operands).imp ?_ |>.snd h
  rintro i g ⟨inst, data, position, -, hb, hpos, hterm, hc, hg⟩
  obtain ⟨-, rfl⟩ := Prod.mk.inj hg
  have hlt : position < data.insts.length := by
    obtain ⟨hlt, -⟩ := List.idxOf?_eq_some_iff.1 hpos
    exact hlt
  exact place_sound h hb (Nat.le_of_lt hlt) (.inl ⟨hterm, hlt⟩) hc

theorem appendValue_snd (f : Func) (b : BlockId) (opcode : Opcode) (operands : List ValueId) :
    ((appendValue b opcode operands).apply f).2 = ((append b opcode operands).apply f).2 := by
  unfold appendValue
  rw [apply_bind]
  rcases (append b opcode operands).apply f with ⟨_ | i, g⟩
  · rfl
  · dsimp only
    rw [apply_bind, apply_query]
    cases g.inst i with
    | error err => rfl
    | ok inst =>
      dsimp only
      cases inst.result <;> rfl

theorem vararg_apply (f : Func) (b : BlockId) : (vararg b).apply f =
    (appendValue b (if f.variadic then .vararg else .makeTuple) []).apply f := rfl

theorem vararg_sound (h : f.Sound) (b : BlockId) : ((vararg b).apply f).2.Sound := by
  rw [vararg_apply, appendValue_snd]
  exact append_sound h b _ []

theorem grow_sound (h : f.Sound) {g : Func} (kind : ValueKind) (definition : Definition)
    (hi : ∀ i, definition ≠ .inst i) (hp : ∀ p, definition ≠ .phi p) (hentry : g.entry = f.entry)
    (hblocks : g.blocks = f.blocks) (hinsts : g.insts = f.insts) (hphis : g.phis = f.phis)
    (hvalues : g.values = f.values.push { kind, definition })
    (harg : ∀ v, v ∈ g.arguments ↔
      v ∈ f.arguments ∨ v = f.values.next ∧ ∃ n, definition = .argument n)
    (hdom : g.dominance = f.dominance) (hlimit : g.dominanceLimit = f.dominanceLimit) :
    g.Sound := by
  have hl := h.linked.grow hi hp hentry hblocks hinsts hphis hvalues harg
  refine ⟨hl, (h.uses.pushValue kind definition).congr hvalues fun v u => ?_,
    h.coherent.congr hdom hlimit ?_⟩
  · cases u
    · simp only [Func.held_inst, hinsts]
      rfl
    · simp only [Func.held_phi, hphis]
      rfl
  · refine Func.blockGraph_congr hentry (congrArg _ hblocks)
      (fun b => congrArg (fun a => Arena.contains a b) hblocks) fun b _ => ?_
    refine h.linked.successors_congr hl fun op => ?_
    rw [hblocks, hinsts]

theorem addArgument_sound (h : f.Sound) : (addArgument.apply f).2.Sound :=
  grow_sound h .value (.argument f.arguments.length) (by simp) (by simp)
    rfl rfl rfl rfl rfl (fun v => by
      have hg : (addArgument.apply f).2.arguments = f.arguments ++ [f.values.next] := rfl
      simp [hg]) rfl rfl

theorem addUpvalue_sound (h : f.Sound) (capture : Capture) :
    ((addUpvalue capture).apply f).2.Sound := by
  cases capture with
  | byAddress =>
    exact grow_sound h .reference (.upvalue .byAddress (f.upvalues .byAddress).length) (by simp)
      (by simp)
      rfl rfl rfl rfl rfl (fun v => by
        have hg : ((addUpvalue .byAddress).apply f).2.arguments = f.arguments := rfl
        simp [hg]) rfl rfl
  | byCopy =>
    exact grow_sound h .value (.upvalue .byCopy (f.upvalues .byCopy).length) (by simp) (by simp)
      rfl rfl rfl rfl rfl (fun v => by
        have hg : ((addUpvalue .byCopy).apply f).2.arguments = f.arguments := rfl
        simp [hg]) rfl rfl

theorem constant_sound (h : f.Sound) (k : ConstId) : ((constant k).apply f).2.Sound := by
  simp only [constant, apply_bind, apply_get]
  cases (f.constantValue k).filter f.values.contains with
  | some v => exact h
  | none =>
    exact grow_sound h .value (.const k) (by simp) (by simp)
      rfl rfl rfl rfl rfl (fun v => by
        show v ∈ f.arguments ↔ _
        simp) rfl rfl

theorem setVariadic_sound (h : f.Sound) (on : Bool) : ((setVariadic on).apply f).2.Sound :=
  h.of_fields rfl rfl rfl rfl rfl rfl (h.coherent.congr rfl rfl rfl)

theorem dominance_sound (h : f.Sound) : (dominance.apply f).2.Sound := by
  refine (dominance_yields h.coherent).imp ?_ |>.snd h
  rintro d g ⟨hd, rfl⟩
  refine h.of_fields rfl rfl rfl rfl rfl rfl ?_
  rintro d' ⟨⟩
  exact hd

theorem setDominanceLimit_sound (h : f.Sound) (limit : Nat) :
    ((setDominanceLimit limit).apply f).2.Sound := by
  simp only [setDominanceLimit, apply_modify]
  split
  · exact h
  · exact h.of_fields rfl rfl rfl rfl rfl rfl (.of_none rfl)

theorem verify_sound (h : f.Sound) : (verify.apply f).2.Sound := by
  rw [verify_apply]
  exact dominance_sound h

theorem addBlock_sound (h : f.Sound) : (addBlock.apply f).2.Sound :=
  ⟨h.linked.addBlock, h.uses.congr rfl fun v u => by cases u <;> rfl, .of_none rfl⟩

theorem setEntry_sound (h : f.Sound) (b : BlockId) : ((setEntry b).apply f).2.Sound := by
  have hy : (setEntry b).Yields f fun _ g =>
      ∃ data, f.blocks.get? b = some data ∧ g = { f with entry := b, dominance := none } := by
    refine .query_bind fun data hb => ?_
    exact .modify ⟨data, Func.block_eq_ok.1 hb, rfl⟩
  refine hy.imp ?_ |>.snd h
  rintro _ g ⟨data, hb, rfl⟩
  exact ⟨h.linked.setEntry hb, h.uses.congr rfl fun v u => by cases u <;> rfl, .of_none rfl⟩

theorem retarget_of_count {opcode : Opcode} {old : BlockId} (h : opcode.targets.count old = 0)
    (new : BlockId) : opcode.retarget old new = opcode := by
  cases opcode <;> simp_all [Opcode.retarget, Opcode.targets, List.count_cons]

theorem withTarget_eq_self {term : InstId} {inst : Inst} {old : BlockId}
    (hterm : f.insts.get? term = some inst) (hcount : inst.opcode.targets.count old = 0)
    (new : BlockId) : f.withTarget term old new = f := by
  unfold Func.withTarget
  rw [Arena.modify_eq_self]
  intro x hx
  obtain rfl := Option.some.inj (hterm.symm.trans hx)
  rw [retarget_of_count hcount]

theorem retarget_sound (h : f.Sound) (b old new : BlockId) :
    ((retarget b old new).apply f).2.Sound := by
  refine (retarget_yields f b old new).imp ?_ |>.snd h
  rintro _ g ⟨data, term, inst, hnew, -, hterm, rfl⟩
  have hl := h.linked.withTarget term old hnew
  have hu := h.uses.withTarget term old new
  split
  · rename_i hcount
    refine ⟨hl, hu, h.coherent.congr rfl rfl ?_⟩
    rw [withTarget_eq_self hterm hcount]
  · exact ⟨hl.of_fields rfl rfl rfl rfl rfl rfl,
      hu.congr rfl fun v u => by cases u <;> rfl, .of_none rfl⟩

end Edit

end Midend
