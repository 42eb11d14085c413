import Midend.Proofs.Edit.Keeps
import Midend.Proofs.Func.Outline

namespace Midend

namespace Edit

open Func

variable {α β : Type} {f g : Func} {gone : BlockId → Prop}

/-- The edit does not show in the outline. -/
def Quiet (e : Edit α) : Prop := ∀ f, e.Keeps (SameOutline f)

namespace Quiet

theorem same {e : Edit α} (h : e.Quiet) (f : Func) : f.SameOutline (e.apply f).2 := h f f (.refl f)

theorem modify {u : Func → Func} (h : ∀ f, SameOutline f (u f)) :
    (modify u : Edit PUnit).Quiet := fun _ => .modify fun g hg => hg.trans (h g)

theorem pure (a : α) : (pure a : Edit α).Quiet := fun _ => .pure a

theorem bind {e : Edit α} {k : α → Edit β} (he : e.Quiet) (hk : ∀ a, (k a).Quiet) :
    (e >>= k).Quiet := fun f => .bind (he f) fun a => hk a f

theorem query_bind {q : Func → Except Error α} {k : α → Edit β} (hk : ∀ a, (k a).Quiet) :
    (query q >>= k).Quiet := fun f => .bind (.query q) fun a => hk a f

theorem get_bind {k : Func → Edit α} (hk : ∀ g, (k g).Quiet) :
    ((get : Edit Func) >>= k).Quiet := fun f => .bind .get fun g => hk g f

theorem keeps_prunes {e : Edit α} (h : e.Quiet) : e.Keeps (f.Prunes gone) :=
  fun g hg => hg.same (h.same g)

theorem keeps_kept {e : Edit α} (h : e.Quiet) : e.Keeps Kept := fun g hg => hg.same (h.same g)

end Quiet

theorem newValue_quiet (kind : ValueKind) (definition : Definition) :
    (newValue kind definition).Quiet := fun _ _ hg => hg.trans (.of_fields rfl rfl rfl rfl rfl)

theorem addArgument_quiet : addArgument.Quiet :=
  .get_bind fun _ => .bind (newValue_quiet _ _) fun _ =>
    .bind (.modify fun _ => .of_fields rfl rfl rfl rfl rfl) fun _ => .pure _

theorem addUpvalue_quiet (capture : Capture) : (addUpvalue capture).Quiet := by
  refine .get_bind fun _ => .bind (newValue_quiet _ _) fun _ => .bind (.modify fun f => ?_)
    fun _ => .pure _
  cases capture <;> exact .of_fields rfl rfl rfl rfl rfl

theorem constant_quiet (k : ConstId) : (constant k).Quiet := by
  refine .get_bind fun _ => ?_
  split
  · exact .pure _
  · exact .bind (newValue_quiet _ _) fun _ =>
      .bind (.modify fun _ => .of_fields rfl rfl rfl rfl rfl) fun _ => .pure _

theorem forceDestroy_quiet (v : ValueId) : (forceDestroy v).Quiet := by
  refine .query_bind fun _ => .modify fun f => ?_
  dsimp only
  split <;> exact .of_fields rfl rfl rfl rfl rfl

theorem addPhi_quiet (b : BlockId) : (addPhi b).Quiet := by
  refine .query_bind fun _ => .get_bind fun g => .bind (newValue_quiet _ _) fun _ =>
    .bind (.modify fun f => ?_) fun _ => .pure _
  exact .of_modifyBlock rfl rfl rfl rfl rfl fun _ => rfl

theorem setPhiSource_quiet (p : PhiId) (pred : BlockId) (v : ValueId) :
    (setPhiSource p pred v).Quiet := by
  refine .query_bind fun _ => .query_bind fun _ => .query_bind fun _ => .modify fun f => ?_
  dsimp only
  split <;> exact .of_fields rfl rfl rfl rfl rfl

theorem removePhiSource_quiet (p : PhiId) (pred : BlockId) : (removePhiSource p pred).Quiet := by
  refine .query_bind fun _ => .bind (.modify fun f => ?_) fun _ => .pure _
  dsimp only
  split <;> exact .of_fields rfl rfl rfl rfl rfl

theorem discardPhi_quiet (p : PhiId) : (discardPhi p).Quiet := by
  refine .get_bind fun _ => ?_
  split
  · exact .pure _
  · refine .bind (.modify fun f => ?_) fun _ => forceDestroy_quiet _
    rw [releaseUses_eq]
    exact .of_fields rfl rfl rfl rfl rfl

theorem removePhi_quiet (p : PhiId) : (removePhi p).Quiet := by
  refine .query_bind fun _ => .query_bind fun _ => ?_
  split
  · exact fun _ => .throw _
  · exact .bind (discardPhi_quiet p) fun _ => .modify fun f =>
      .of_modifyBlock rfl rfl rfl rfl rfl fun _ => rfl

theorem setOperand_quiet (i : InstId) (index : Nat) (v : ValueId) :
    (setOperand i index v).Quiet := by
  refine .query_bind fun _ => .query_bind fun _ => ?_
  split
  · exact fun _ => .throw _
  · split
    · refine .modify fun f => ?_
      exact .of_modifyInst rfl rfl rfl rfl rfl fun _ => ⟨rfl, rfl⟩
    · exact .pure _

theorem replaceIn_quiet (old new : ValueId) (user : User) (count : Nat) :
    (replaceIn old new user count).Quiet := by
  have huses : (modify fun f => (f.modifyValue old (·.dropUses user)).modifyValue new
      (·.addUses user count) : Edit PUnit).Quiet :=
    .modify fun _ => .of_fields rfl rfl rfl rfl rfl
  cases user with
  | inst i =>
    refine .query_bind fun _ => .bind (.modify fun f => ?_) fun _ => .bind (.pure _) fun _ =>
      .bind huses fun _ => .pure _
    exact .of_modifyInst rfl rfl rfl rfl rfl fun _ => ⟨rfl, rfl⟩
  | phi p =>
    exact .query_bind fun _ => .bind (.modify fun _ => .of_fields rfl rfl rfl rfl rfl) fun _ =>
      .bind (.pure _) fun _ => .bind huses fun _ => .pure _

theorem replaceAllUses_quiet (old new : ValueId) : (replaceAllUses old new).Quiet := by
  unfold replaceAllUses
  split
  · exact .pure _
  · exact .query_bind fun _ => .query_bind fun _ => fun f => .foldlM
      (fun n (u : User × Nat) => .bind (replaceIn_quiet old new u.1 u.2 f) fun _ => .pure _) _ _

theorem dropEdgeSources_quiet (pred b : BlockId) : (dropEdgeSources pred b).Quiet := by
  refine .get_bind fun _ => ?_
  split
  · exact .pure _
  · exact fun f => .forM fun p _ => .discard (removePhiSource_quiet p pred f)

theorem dominance_keeps : dominance.Keeps Kept := by
  intro f hf
  simp only [dominance, apply_bind, apply_get]
  cases hd : f.dominance with
  | some d => exact hf
  | none =>
    simp only [apply_bind, apply_query]
    cases hrun : f.computeDominance f.dominanceLimit with
    | error err => exact hf
    | ok d =>
      refine ⟨⟨hf.orderly.listed, hf.orderly.last, hf.orderly.target_lt⟩, fun d' hd' => ?_⟩
      obtain rfl := Option.some.inj hd'
      exact ⟨d, hrun, rfl, rfl⟩

theorem setDominanceLimit_keeps (limit : Nat) : (setDominanceLimit limit).Keeps Kept := by
  refine .modify fun f hf => ?_
  split
  · exact hf
  · exact ⟨⟨hf.orderly.listed, hf.orderly.last, hf.orderly.target_lt⟩, .of_none rfl⟩

theorem setEntry_keeps (b : BlockId) : (setEntry b).Keeps Kept :=
  .bind (.query _) fun _ => .modify fun _ hf =>
    ⟨⟨hf.orderly.listed, hf.orderly.last, hf.orderly.target_lt⟩, .of_none rfl⟩

theorem addBlock_keeps : addBlock.Keeps Kept := by
  intro f hf
  have hlist : ∀ b is, (addBlock.apply f).2.instIds b = some is →
      is = [] ∨ f.instIds b = some is := by
    intro b is his
    simp only [addBlock, apply_modifyGet, Func.invalidateDominance, instIds, Arena.get?_push] at his
    split at his
    · exact .inl (Option.some.inj his).symm
    · exact .inr his
  refine ⟨⟨fun b is i his hi => ?_, fun b is i op c his hi => ?_, fun i op b t hi ht => ?_⟩,
    .of_none rfl⟩
  · rcases hlist b is his with rfl | his
    · simp at hi
    · exact hf.orderly.listed b is i his hi
  · rcases hlist b is his with rfl | his
    · simp at hi
    · exact hf.orderly.last b is i op c his hi
  · have hlt := hf.orderly.target_lt i op b t hi ht
    exact Nat.lt_of_lt_of_eq (Nat.lt_succ_of_lt hlt) (Arena.size_push ..).symm

theorem retarget_keeps (b old new : BlockId) : (retarget b old new).Keeps Kept := by
  intro f hf
  refine (retarget_yields f b old new).imp ?_ |>.snd hf
  rintro _ g ⟨data, term, inst, hnew, -, hterm, rfl⟩
  split
  · rename_i hcount
    rw [withTarget_eq_self hterm hcount]
    exact hf
  · have hcode : ∀ i op c, (f.withTarget term old new).code i = some (op, c) →
        ∃ op', f.code i = some (op', c) ∧ (op = op' ∨ op = op'.retarget old new) := by
      intro i op c hi
      simp only [code, withTarget, Arena.get?_modify] at hi
      split at hi
      · simp only [Option.map_map, Option.map_eq_some_iff, Function.comp_apply, Prod.mk.injEq] at hi
        obtain ⟨inst', hi', rfl, rfl⟩ := hi
        exact ⟨inst'.opcode, by rw [code, hi', Option.map_some], .inr rfl⟩
      · exact ⟨op, hi, .inl rfl⟩
    refine ⟨⟨fun c is i his hi => ?_, fun c is i op c' his hi hc hterm' => ?_,
      fun i op c t hc ht => ?_⟩, .of_none rfl⟩
    · obtain ⟨op, hop⟩ := hf.orderly.listed c is i his hi
      obtain ⟨inst', hi', heq⟩ := Option.map_eq_some_iff.1 hop
      obtain ⟨rfl, rfl⟩ := Prod.mk.inj heq
      simp only [code, Func.invalidateDominance, withTarget, Arena.get?_modify, hi']
      split <;> exact ⟨_, rfl⟩
    · obtain ⟨op', hop', heq⟩ := hcode i op c' hc
      refine hf.orderly.last c is i op' c' his hi hop' ?_
      rcases heq with rfl | rfl
      · exact hterm'
      · rwa [isTerminator_retarget] at hterm'
    · obtain ⟨op', hop', heq⟩ := hcode i op c hc
      rcases heq with rfl | rfl
      · exact hf.orderly.target_lt i op c t hop' ht
      · rcases targets_retarget op' old new ht with rfl | ht
        · exact hasBlock_lt (hasBlock_iff.2 ⟨data, hnew⟩)
        · exact hf.orderly.target_lt i op' c t hop' ht

theorem not_isTerminator_of_open (hf : f.Orderly) {b : BlockId} {is : List InstId}
    (his : f.instIds b = some is) (hopen : f.terminator b = .ok none) {i : InstId} {op : Opcode}
    {c : BlockId} (hi : i ∈ is) (hc : f.code i = some (op, c)) : op.isTerminator = false := by
  rw [Bool.eq_false_iff]
  intro hterm
  have hlast := hf.last b is i op c his hi hc hterm
  obtain ⟨data, hb, rfl⟩ := Option.map_eq_some_iff.1 his
  obtain ⟨inst, hinst, heq⟩ := Option.map_eq_some_iff.1 hc
  obtain ⟨rfl, rfl⟩ := Prod.mk.inj heq
  have hsome : f.terminator b = .ok (some i) := by
    refine bind_eq_ok.2 ⟨data, block_eq_ok.2 hb, ?_⟩
    simp only [Block.last, hlast]
    refine bind_eq_ok.2 ⟨inst, inst_eq_ok.2 hinst, ?_⟩
    rw [if_pos (show inst.isTerminator = true from hterm)]
    rfl
  rw [hopen] at hsome
  cases hsome

theorem instIds_place {b : BlockId} {data : Block} (hb : f.blocks.get? b = some data) (position : Nat)
    (opcode : Opcode) (operands : List ValueId) (c : BlockId) :
    (place b position opcode operands f).2.instIds c =
      if c = b then some (data.insts.insertIdx position f.insts.next) else f.instIds c := by
  simp only [place_eq, instIds, Arena.get?_modify]
  split
  · rename_i heq
    rw [heq, hb]
    rfl
  · rfl

theorem code_place (f : Func) (b : BlockId) (position : Nat) (opcode : Opcode)
    (operands : List ValueId) (j : InstId) :
    (place b position opcode operands f).2.code j =
      if j = f.insts.next then some (opcode, b) else f.code j := by
  simp only [place_eq, code, Arena.get?_push]
  split <;> rfl

theorem ne_next_of_listed (hf : f.Orderly) {c : BlockId} {is : List InstId} {j : InstId}
    (his : f.instIds c = some is) (hj : j ∈ is) : j ≠ f.insts.next := by
  rintro rfl
  obtain ⟨op, hop⟩ := hf.listed c is _ his hj
  rw [code, Arena.get?_next] at hop
  cases hop

section Place

variable {b : BlockId} {data : Block} {position : Nat} {opcode : Opcode} {operands : List ValueId}
  (hb : f.blocks.get? b = some data) (hpos : position ≤ data.insts.length)
  (hlast : (opcode.isTerminator = false ∧ position < data.insts.length) ∨
    (f.terminator b = .ok none ∧ position = data.insts.length))
  (hc : checkOperation opcode operands f = .ok ())

include hb hpos hlast hc

theorem place_orderly (hf : f.Orderly) : (place b position opcode operands f).2.Orderly := by
  have hblist : f.instIds b = some data.insts := by rw [instIds, hb, Option.map_some]
  have hmem : ∀ j, j ∈ data.insts.insertIdx position f.insts.next ↔
      j = f.insts.next ∨ j ∈ data.insts := fun j => List.mem_insertIdx hpos
  refine ⟨fun c is j his hj => ?_, fun c is j op c' his hj hcj hterm => ?_,
    fun j op c t hcj ht => ?_⟩
  · rw [instIds_place hb] at his
    rw [code_place]
    split at his
    · rename_i heq
      subst heq
      obtain rfl := Option.some.inj his
      rcases (hmem j).1 hj with rfl | hj
      · exact ⟨opcode, if_pos rfl⟩
      · rw [if_neg (ne_next_of_listed hf hblist hj)]
        exact hf.listed c _ j hblist hj
    · rw [if_neg (ne_next_of_listed hf his hj)]
      exact hf.listed c is j his hj
  · rw [instIds_place hb] at his
    rw [code_place] at hcj
    split at his
    · rename_i heq
      subst heq
      obtain rfl := Option.some.inj his
      rcases (hmem j).1 hj with rfl | hj
      · obtain ⟨rfl, -⟩ := Prod.mk.inj (Option.some.inj ((if_pos rfl).symm.trans hcj))
        rcases hlast with ⟨hno, -⟩ | ⟨-, hend⟩
        · rw [hno] at hterm
          cases hterm
        · exact (getLast?_insertIdx _).2 hend
      · rw [if_neg (ne_next_of_listed hf hblist hj)] at hcj
        rcases hlast with ⟨-, hlt⟩ | ⟨hopen, -⟩
        · rw [(getLast?_insertIdx _).1 hlt]
          exact hf.last c _ j op c' hblist hj hcj hterm
        · rw [not_isTerminator_of_open hf hblist hopen hj hcj] at hterm
          cases hterm
    · rw [if_neg (ne_next_of_listed hf his hj)] at hcj
      exact hf.last c is j op c' his hj hcj hterm
  · have hsize : (place b position opcode operands f).2.blocks.size = f.blocks.size := by
      rw [place_eq]
      exact Arena.size_modify ..
    rw [hsize]
    rw [code_place] at hcj
    split at hcj
    · obtain ⟨rfl, -⟩ := Prod.mk.inj (Option.some.inj hcj)
      exact hasBlock_lt (hasBlock_iff.2 ((checkOperation_ok hc).2 t ht))
    · exact hf.target_lt j op c t hcj ht

theorem place_kept (hf : f.Kept) : (place b position opcode operands f).2.Kept := by
  have horderly := place_orderly hb hpos hlast hc hf.orderly
  refine ⟨horderly, ?_⟩
  cases hterm : opcode.isTerminator with
  | true => exact .of_none (by rw [place_eq, hterm]; rfl)
  | false =>
    refine hf.current.congr (by rw [place_eq, hterm]; rfl) (by rw [place_eq]) ?_
    refine blockGraph_congr (by rw [place_eq]) (by rw [place_eq]; simp)
      (fun c => by rw [place_eq]; simp [hasBlock]) fun c _ => ?_
    -- The new instruction is no terminator, so the terminators are those that were there.
    refine hf.orderly.successors_congr_of_ne horderly (i := f.insts.next)
      (fun j hj => by rw [code_place, if_neg hj]) (fun j hj => ?_) fun op c hop => ?_
    · rw [instIds_place hb]
      split
      · rename_i heq
        simp [heq, instIds, hb, List.mem_insertIdx hpos, hj]
      · rfl
    · rw [code_place, if_pos rfl, code, Arena.get?_next] at hop
      rcases hop with hop | hop
      · cases hop
      · obtain ⟨rfl, -⟩ := Prod.mk.inj (Option.some.inj hop)
        exact hterm

end Place

theorem append_keeps (b : BlockId) (opcode : Opcode) (operands : List ValueId) :
    (append b opcode operands).Keeps Kept := by
  intro f hf
  refine (append_yields f b opcode operands).imp ?_ |>.snd hf
  rintro i g ⟨data, hb, hopen, hc, hg⟩
  obtain ⟨-, rfl⟩ := Prod.mk.inj hg
  exact place_kept hb (Nat.le_refl _) (.inr ⟨hopen, rfl⟩) hc hf

theorem insertBefore_keeps (before : InstId) (opcode : Opcode) (operands : List ValueId) :
    (insertBefore before opcode operands).Keeps Kept := by
  intro f hf
  refine (insertBefore_yields f before opcode operands).imp ?_ |>.snd hf
  rintro i g ⟨inst, data, position, -, hb, hpos, hterm, hc, hg⟩
  obtain ⟨-, rfl⟩ := Prod.mk.inj hg
  obtain ⟨hlt, -⟩ := List.idxOf?_eq_some_iff.1 hpos
  exact place_kept hb (Nat.le_of_lt hlt) (.inl ⟨hterm, hlt⟩) hc hf

theorem forceDestroy_run {v : ValueId} (hv : f.values.contains v = true) :
    ∃ g, (forceDestroy v).apply f = (.ok (), g) ∧ g.insts = f.insts ∧ g.blocks = f.blocks ∧
      g.entry = f.entry ∧ g.dominanceLimit = f.dominanceLimit ∧ g.dominance = f.dominance := by
  obtain ⟨val, hval⟩ := Option.isSome_iff_exists.1 hv
  simp only [forceDestroy, apply_bind, apply_query, value_eq_ok.2 hval, apply_modify]
  split <;> exact ⟨_, rfl, rfl, rfl, rfl, rfl, rfl⟩

theorem discardInst_run {i : InstId} {data : Inst} (hi : f.insts.get? i = some data)
    (hlive : ∀ v, data.result = some v → f.values.contains v = true) :
    ∃ g, (discardInst i).apply f = (.ok (), g) ∧ g.insts = f.insts.erase i ∧
      g.blocks = f.blocks ∧ g.entry = f.entry ∧ g.dominanceLimit = f.dominanceLimit ∧
      g.dominance = f.dominance := by
  simp only [discardInst, apply_bind, apply_get, hi, apply_modify]
  cases hres : data.result with
  | none => exact ⟨_, rfl, by simp [releaseUses_eq]⟩
  | some v =>
    have hstill : ({ f with insts := f.insts.erase i }.releaseUses (.inst i)
        data.operands).values.contains v = true := by
      rw [Arena.contains, get?_releaseUses, Option.isSome_map]
      exact hlive v hres
    obtain ⟨g, hrun, hinsts, hblocks, hentry, hlimit, hdom⟩ := forceDestroy_run hstill
    refine ⟨g, hrun, ?_⟩
    simp [hinsts, hblocks, hentry, hlimit, hdom, releaseUses_eq]

/-- What the removal of an instruction does to the outline. -/
theorem removeInst_outline (f : Func) (i : InstId) :
    (removeInst i).Yields f fun _ g => ∃ data, f.insts.get? i = some data ∧
      g.insts = f.insts.erase i ∧ g.blocks = (f.unlistInst data.block i).blocks ∧
      g.entry = f.entry ∧ g.dominanceLimit = f.dominanceLimit ∧
      g.dominance = if data.isTerminator then none else f.dominance := by
  refine .query_bind fun data hi => ?_
  replace hi := inst_eq_ok.1 hi
  have hrest : (∀ v, data.result = some v → f.values.contains v = true) →
      (discardInst i >>= fun _ => modify fun f =>
        let f := { f with
          blocks := f.blocks.modify data.block fun d => { d with insts := d.insts.filter (· ≠ i) } }
        if data.isTerminator then f.invalidateDominance else f : Edit PUnit).Yields f fun _ g =>
        ∃ data, f.insts.get? i = some data ∧ g.insts = f.insts.erase i ∧
          g.blocks = (f.unlistInst data.block i).blocks ∧ g.entry = f.entry ∧
          g.dominanceLimit = f.dominanceLimit ∧
          g.dominance = if data.isTerminator then none else f.dominance := by
    intro hlive
    obtain ⟨g, hrun, hinsts, hblocks, hentry, hlimit, hdom⟩ := discardInst_run hi hlive
    refine .inr ⟨⟨⟩, _, by rw [apply_bind, hrun]; rfl, data, hi, ?_⟩
    dsimp only
    split <;> simp [unlistInst, Func.invalidateDominance, hinsts, hblocks, hentry, hlimit, hdom]
  cases hres : data.result with
  | none => exact hrest fun v hv => by rw [hres] at hv; cases hv
  | some result =>
    refine .query_bind fun value hvalue => ?_
    split
    · refine hrest fun v hv => ?_
      rw [hres] at hv
      obtain rfl := Option.some.inj hv
      exact Option.isSome_iff_exists.2 ⟨value, value_eq_ok.1 hvalue⟩
    · exact .inl ⟨_, rfl⟩

section RemoveInst

variable {i : InstId} {data : Inst} (hi : f.insts.get? i = some data)
  (hinsts : g.insts = f.insts.erase i) (hblocks : g.blocks = (f.unlistInst data.block i).blocks)

include hinsts in
theorem code_of_erase (j : InstId) : g.code j = if j = i then none else f.code j := by
  simp only [code, hinsts, Arena.get?_erase]
  split <;> rfl

include hblocks in
theorem instIds_of_unlist (c : BlockId) : g.instIds c = if c = data.block then
    (f.instIds c).map (·.filter (· ≠ i)) else f.instIds c := by
  simp only [instIds, hblocks, unlistInst, Arena.get?_modify]
  split
  · rw [Option.map_map, Option.map_map]
    rfl
  · rfl

include hi hblocks

theorem listed_of_unlist (hf : f.Orderly) {c : BlockId} {is : List InstId} {j : InstId}
    (his : g.instIds c = some is) (hj : j ∈ is) :
    j ≠ i ∧ ∃ is', f.instIds c = some is' ∧ j ∈ is' ∧
      (is'.getLast? = some j → is.getLast? = some j) := by
  rw [instIds_of_unlist hblocks] at his
  split at his
  · obtain ⟨is', his', rfl⟩ := Option.map_eq_some_iff.1 his
    obtain ⟨hj, hne⟩ := List.mem_filter.1 hj
    have hne : j ≠ i := of_decide_eq_true hne
    exact ⟨hne, is', his', hj, fun hlast => getLast?_filter_ne hlast hne⟩
  · rename_i hc
    refine ⟨?_, is, his, hj, id⟩
    rintro rfl
    have hown : f.code j = some (data.opcode, data.block) := by rw [code, hi, Option.map_some]
    obtain ⟨op, hop⟩ := hf.listed c is j his hj
    exact hc (Prod.mk.inj (Option.some.inj (hop.symm.trans hown))).2

include hinsts

theorem orderly_of_unlist (hf : f.Orderly) : g.Orderly := by
  refine ⟨fun c is j his hj => ?_, fun c is j op c' his hj hcj hterm => ?_,
    fun j op c t hcj ht => ?_⟩
  · obtain ⟨hne, is', his', hj', -⟩ := listed_of_unlist hi hblocks hf his hj
    rw [code_of_erase hinsts, if_neg hne]
    exact hf.listed c is' j his' hj'
  · obtain ⟨hne, is', his', hj', hkeep⟩ := listed_of_unlist hi hblocks hf his hj
    rw [code_of_erase hinsts, if_neg hne] at hcj
    exact hkeep (hf.last c is' j op c' his' hj' hcj hterm)
  · rw [code_of_erase hinsts] at hcj
    split at hcj
    · cases hcj
    · have hlt := hf.target_lt j op c t hcj ht
      rw [hblocks]
      exact Nat.lt_of_lt_of_eq hlt (Arena.size_modify ..).symm

end RemoveInst

theorem removeInst_keeps (i : InstId) : (removeInst i).Keeps Kept := by
  intro f hf
  refine (removeInst_outline f i).imp ?_ |>.snd hf
  rintro _ g ⟨data, hi, hinsts, hblocks, hentry, hlimit, hdom⟩
  have horderly := orderly_of_unlist hi hinsts hblocks hf.orderly
  refine ⟨horderly, ?_⟩
  cases hterm : data.isTerminator with
  | true => exact .of_none (by rw [hdom, hterm]; rfl)
  | false =>
    refine hf.current.congr (by rw [hdom, hterm]; rfl) hlimit ?_
    refine blockGraph_congr hentry (by rw [hblocks]; simp [unlistInst])
      (fun c => by simp [hasBlock, hblocks, unlistInst]) fun c _ => ?_
    refine hf.orderly.successors_congr_of_ne horderly (i := i)
      (fun j hj => by rw [code_of_erase hinsts, if_neg hj]) (fun j hj => ?_) fun op c hop => ?_
    · rw [instIds_of_unlist hblocks]
      split
      · cases f.instIds c <;> simp [hj]
      · rfl
    · rw [code_of_erase hinsts, if_pos rfl, code, hi, Option.map_some] at hop
      rcases hop with hop | hop
      · obtain ⟨rfl, -⟩ := Prod.mk.inj (Option.some.inj hop)
        exact hterm
      · cases hop

end Edit

end Midend
