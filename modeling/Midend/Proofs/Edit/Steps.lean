import Mathlib.Tactic.Common
import Midend.Edit.Blocks
import Midend.Edit.Construct
import Midend.Func.Verify
import Midend.Proofs.Checked
import Midend.Proofs.Edit.Values

namespace Midend

namespace Func

variable {f : Func}

theorem value_eq_ok {v : ValueId} {val : Value} : f.value v = .ok val ↔ f.values.get? v = some val := by
  unfold Func.value
  split <;> simp_all

theorem inst_eq_ok {i : InstId} {inst : Inst} : f.inst i = .ok inst ↔ f.insts.get? i = some inst := by
  unfold Func.inst
  split <;> simp_all

theorem phi_eq_ok {p : PhiId} {phi : Phi} : f.phi p = .ok phi ↔ f.phis.get? p = some phi := by
  unfold Func.phi
  split <;> simp_all

theorem block_eq_ok {b : BlockId} {data : Block} : f.block b = .ok data ↔ f.blocks.get? b = some data := by
  unfold Func.block
  split <;> simp_all

theorem hasBlock_iff {b : BlockId} : f.hasBlock b = true ↔ ∃ data, f.blocks.get? b = some data := by
  rw [hasBlock, Arena.contains, Option.isSome_iff_exists]

/-- One use by `user` goes from `old` to `new`. -/
def moveUse (f : Func) (user : User) (old new : Option ValueId) : Func :=
  let f := match old with
    | some old => f.modifyValue old (·.dropUse user)
    | none => f
  match new with
  | some new => f.modifyValue new (·.addUses user 1)
  | none => f

/-- A phi takes `v` from a predecessor, in place of `old`. -/
def withSource (f : Func) (p : PhiId) (old : Option ValueId) (pred : BlockId) (v : ValueId) :
    Func :=
  { f with
    phis := f.phis.modify p fun d => { d with sources := d.sources.insert pred v } }.moveUse
      (.phi p) old (some v)

def withoutSource (f : Func) (p : PhiId) (old : Option ValueId) (pred : BlockId) : Func :=
  { f with
    phis := f.phis.modify p fun d => { d with sources := d.sources.erase pred } }.moveUse
      (.phi p) old none

def withOperand (f : Func) (i : InstId) (index : Nat) (old v : ValueId) : Func :=
  { f with
    insts := f.insts.modify i fun d => { d with operands := d.operands.set index v } }.moveUse
      (.inst i) (some old) (some v)

/-- The value that stands where `v` stood, once `old` is replaced. -/
def swap (old new v : ValueId) : ValueId := if v = old then new else v

def withUser (f : Func) (old new : ValueId) (user : User) (count : Nat) : Func :=
  let f := match user with
    | .inst i =>
      { f with
        insts := f.insts.modify i fun d => { d with operands := d.operands.map (swap old new) } }
    | .phi p =>
      { f with
        phis := f.phis.modify p fun d => { d with sources := d.sources.mapValues (swap old new) } }
  (f.modifyValue old (·.dropUses user)).modifyValue new (·.addUses user count)

def dropInst (f : Func) (i : InstId) (data : Inst) : Func :=
  let f := { f with insts := f.insts.erase i }.releaseUses (.inst i) data.operands
  match data.result with
  | none => f
  | some result => { f with values := f.values.erase result }

def dropPhi (f : Func) (p : PhiId) (data : Phi) : Func :=
  let f := { f with phis := f.phis.erase p }.releaseUses (.phi p) data.sources.values
  { f with values := f.values.erase data.result }

def unlistInst (f : Func) (b : BlockId) (i : InstId) : Func :=
  { f with blocks := f.blocks.modify b fun d => { d with insts := d.insts.filter (· ≠ i) } }

def unlistPhi (f : Func) (b : BlockId) (p : PhiId) : Func :=
  { f with blocks := f.blocks.modify b fun d => { d with phis := d.phis.filter (· ≠ p) } }

def withPhi (f : Func) (b : BlockId) : Func :=
  let p := f.phis.next
  let result := f.values.next
  { f.pushValue .value (.phi p) with
    phis := f.phis.push { block := b, result }
    blocks := f.blocks.modify b fun d => { d with phis := d.phis ++ [p] } }

/-- The result of an operation that has one is a value of the next instruction. -/
def withResult (f : Func) (opcode : Opcode) : Func :=
  match opcode.resultKind with
  | some kind => f.pushValue kind (.inst f.insts.next)
  | none => f

def withTarget (f : Func) (term : InstId) (old new : BlockId) : Func :=
  { f with insts := f.insts.modify term fun d => { d with opcode := d.opcode.retarget old new } }

end Func

namespace Edit

theorem apply_discard {α : Type} (e : Edit α) (f : Func) :
    (discard e).apply f = ((e.apply f).1.map fun _ => ⟨⟩, (e.apply f).2) :=
  apply_map (fun _ => PUnit.unit) e f

theorem apply_bind_eq_ok {α β : Type} {e : Edit α} {k : α → Edit β} {f g : Func} {b : β} :
    (e >>= k).apply f = (.ok b, g) ↔
      ∃ a h, e.apply f = (.ok a, h) ∧ (k a).apply h = (.ok b, g) := by
  rw [apply_bind]
  rcases e.apply f with ⟨_ | a, h⟩
  · simp
  · simp

section Yields

variable {α β : Type} {f : Func} {Q : α → Func → Prop}

/-- The edit fails and changes nothing, or it succeeds with `Q`. -/
def Yields (e : Edit α) (f : Func) (Q : α → Func → Prop) : Prop :=
  (∃ err, e.apply f = (.error err, f)) ∨ ∃ a g, e.apply f = (.ok a, g) ∧ Q a g

theorem Yields.pure {a : α} (h : Q a f) : (pure a : Edit α).Yields f Q := .inr ⟨a, f, rfl, h⟩

theorem Yields.throw (err : Error) : (throw err : Edit α).Yields f Q := .inl ⟨err, rfl⟩

theorem Yields.modify {u : Func → Func} {Q : PUnit → Func → Prop} (h : Q ⟨⟩ (u f)) :
    (modify u : Edit PUnit).Yields f Q := .inr ⟨⟨⟩, u f, rfl, h⟩

theorem Yields.modifyGet {u : Func → α × Func} (h : Q (u f).1 (u f).2) :
    (modifyGet u : Edit α).Yields f Q := .inr ⟨_, _, rfl, h⟩

theorem Yields.query_bind {q : Func → Except Error β} {k : β → Edit α}
    (h : ∀ b, q f = .ok b → (k b).Yields f Q) : (Edit.query q >>= k).Yields f Q := by
  cases hb : q f with
  | error err => exact .inl ⟨err, by rw [apply_bind, apply_query, hb]⟩
  | ok b =>
    have happly : (Edit.query q >>= k).apply f = (k b).apply f := by
      rw [apply_bind, apply_query, hb]
    unfold Yields
    rw [happly]
    exact h b hb

theorem Yields.get_bind {k : Func → Edit α} (h : (k f).Yields f Q) :
    ((get : Edit Func) >>= k).Yields f Q := h

theorem Yields.imp {e : Edit α} {R : α → Func → Prop} (h : e.Yields f Q)
    (hi : ∀ a g, Q a g → R a g) : e.Yields f R :=
  h.imp_right fun ⟨a, g, hg, hq⟩ => ⟨a, g, hg, hi a g hq⟩

theorem Yields.snd {e : Edit α} {P : Func → Prop} (h : e.Yields f fun _ g => P g) (hf : P f) :
    P (e.apply f).2 := by
  rcases h with ⟨err, he⟩ | ⟨a, g, he, hg⟩
  · rw [he]
    exact hf
  · rw [he]
    exact hg

theorem Yields.of_ok {e : Edit α} {a : α} {g : Func} (h : e.Yields f Q)
    (he : e.apply f = (.ok a, g)) : Q a g := by
  rcases h with ⟨err, h'⟩ | ⟨a', g', h', hq⟩
  · rw [he] at h'
    cases h'
  · rw [he] at h'
    cases h'
    exact hq

end Yields

variable {f : Func}

theorem setPhiSource_yields (f : Func) (p : PhiId) (pred : BlockId) (v : ValueId) :
    (setPhiSource p pred v).Yields f fun _ g =>
      ∃ val data phi, f.values.get? v = some val ∧ f.blocks.get? pred = some data ∧
        f.phis.get? p = some phi ∧ g = f.withSource p (phi.source pred) pred v := by
  refine .query_bind fun val hv => .query_bind fun data hb => .query_bind fun phi hp => ?_
  exact .modify ⟨val, data, phi, Func.value_eq_ok.1 hv, Func.block_eq_ok.1 hb, Func.phi_eq_ok.1 hp,
    rfl⟩

theorem removePhiSource_yields (f : Func) (p : PhiId) (pred : BlockId) :
    (removePhiSource p pred).Yields f fun a g =>
      ∃ phi, f.phis.get? p = some phi ∧ a = phi.source pred ∧
        g = f.withoutSource p (phi.source pred) pred := by
  refine .query_bind fun phi hp => ?_
  exact .inr ⟨_, _, rfl, phi, Func.phi_eq_ok.1 hp, rfl, rfl⟩

theorem addPhi_yields (f : Func) (b : BlockId) :
    (addPhi b).Yields f fun p g =>
      ∃ data, f.blocks.get? b = some data ∧ p = f.phis.next ∧ g = f.withPhi b := by
  refine .query_bind fun data hb => ?_
  exact .inr ⟨_, _, rfl, data, Func.block_eq_ok.1 hb, rfl, rfl⟩

theorem setOperand_yields (f : Func) (i : InstId) (index : Nat) (v : ValueId) :
    (setOperand i index v).Yields f fun _ g =>
      ∃ val inst old, f.values.get? v = some val ∧ f.insts.get? i = some inst ∧
        inst.operands[index]? = some old ∧
        g = if old = v then f else f.withOperand i index old v := by
  refine .query_bind fun val hv => .query_bind fun inst hi => ?_
  cases ho : inst.operands[index]? with
  | none => exact .throw _
  | some old =>
    by_cases h : old = v
    · simp only [h, ne_eq, not_true_eq_false, if_false]
      exact .pure ⟨val, inst, v, Func.value_eq_ok.1 hv, Func.inst_eq_ok.1 hi, h ▸ ho, by simp⟩
    · simp only [h, ne_eq, not_false_eq_true, if_true]
      exact .modify ⟨val, inst, old, Func.value_eq_ok.1 hv, Func.inst_eq_ok.1 hi, ho, by
        rw [if_neg h]; rfl⟩

/-- Forgetting the result of an instruction or a phi touches nothing but its slot. -/
theorem forceDestroy_apply {v : ValueId} {val : Value} (hv : f.values.get? v = some val)
    (hk : ∀ k, val.definition ≠ .const k) :
    (forceDestroy v).apply f = (.ok (), { f with values := f.values.erase v }) := by
  have hq : f.value v = .ok val := Func.value_eq_ok.2 hv
  simp only [forceDestroy, apply_bind, apply_query, hq, apply_modify]

theorem discardInst_apply {i : InstId} {data : Inst} (hi : f.insts.get? i = some data)
    (hr : ∀ v, data.result = some v →
      ∃ val, f.values.get? v = some val ∧ val.definition = .inst i) :
    (discardInst i).apply f = (.ok (), f.dropInst i data) := by
  simp only [discardInst, apply_bind, apply_get, hi, apply_modify, Func.dropInst]
  cases hres : data.result with
  | none => rfl
  | some v =>
    obtain ⟨val, hv, hd⟩ := hr v hres
    have hget : ({ f with insts := f.insts.erase i }.releaseUses (.inst i) data.operands).values.get? v
        = some (if v ∈ data.operands then val.dropUses (.inst i) else val) := by
      rw [Func.get?_releaseUses, hv]
      rfl
    refine forceDestroy_apply hget ?_
    intro k
    split <;> simp [hd]

theorem discardPhi_apply {p : PhiId} {data : Phi} (hp : f.phis.get? p = some data)
    (hr : ∃ val, f.values.get? data.result = some val ∧ val.definition = .phi p) :
    (discardPhi p).apply f = (.ok (), f.dropPhi p data) := by
  simp only [discardPhi, apply_bind, apply_get, hp, apply_modify, Func.dropPhi]
  obtain ⟨val, hv, hd⟩ := hr
  have hget : ({ f with phis := f.phis.erase p }.releaseUses (.phi p)
      data.sources.values).values.get? data.result
      = some (if data.result ∈ data.sources.values then val.dropUses (.phi p) else val) := by
    rw [Func.get?_releaseUses, hv]
    rfl
  refine forceDestroy_apply hget ?_
  intro k
  split <;> simp [hd]

theorem removePhi_yields (f : Func) (p : PhiId)
    (hr : ∀ data, f.phis.get? p = some data →
      ∃ val, f.values.get? data.result = some val ∧ val.definition = .phi p) :
    (removePhi p).Yields f fun _ g =>
      ∃ data val, f.phis.get? p = some data ∧ f.values.get? data.result = some val ∧
        (∀ u ∈ val.users, u.1 = .phi p) ∧ g = (f.unlistPhi data.block p).dropPhi p data := by
  refine .query_bind fun data hp => .query_bind fun val hv => ?_
  replace hp := Func.phi_eq_ok.1 hp
  split
  · exact .inl ⟨_, rfl⟩
  · rename_i hany
    refine .inr ⟨(), (f.unlistPhi data.block p).dropPhi p data, ?_, data, val, hp,
      Func.value_eq_ok.1 hv, by simpa using hany, rfl⟩
    simp only [apply_bind, discardPhi_apply hp (hr data hp), apply_modify]
    simp only [Func.dropPhi, Func.unlistPhi, Func.releaseUses_eq]

theorem removeInst_yields (f : Func) (i : InstId)
    (hr : ∀ data v, f.insts.get? i = some data → data.result = some v →
      ∃ val, f.values.get? v = some val ∧ val.definition = .inst i) :
    (removeInst i).Yields f fun _ g =>
      ∃ data, f.insts.get? i = some data ∧
        (∀ v val, data.result = some v → f.values.get? v = some val → val.isUnused = true) ∧
        g = if data.isTerminator then
            ((f.unlistInst data.block i).dropInst i data).invalidateDominance
          else (f.unlistInst data.block i).dropInst i data := by
  refine .query_bind fun data hi => ?_
  replace hi := Func.inst_eq_ok.1 hi
  have hdrop := discardInst_apply hi fun v hv => hr data v hi hv
  have hcomm : ∀ g : Func, g = f.dropInst i data →
      g.unlistInst data.block i = (f.unlistInst data.block i).dropInst i data := by
    rintro g rfl
    simp only [Func.dropInst, Func.unlistInst, Func.releaseUses_eq]
    cases data.result <;> rfl
  have hrest : (discardInst i >>= fun _ => modify fun f =>
      let f := { f with
        blocks := f.blocks.modify data.block fun d => { d with insts := d.insts.filter (· ≠ i) } }
      if data.isTerminator then f.invalidateDominance else f).apply f =
      (.ok ⟨⟩, if data.isTerminator then
          ((f.unlistInst data.block i).dropInst i data).invalidateDominance
        else (f.unlistInst data.block i).dropInst i data) := by
    rw [apply_bind, hdrop]
    show ((Except.ok _ : Except Error PUnit), if data.isTerminator then
      ((f.dropInst i data).unlistInst data.block i).invalidateDominance
      else (f.dropInst i data).unlistInst data.block i) = _
    rw [hcomm _ rfl]
  cases hres : data.result with
  | none =>
    refine .inr ⟨⟨⟩, _, hrest, data, hi, ?_, rfl⟩
    intro v val hv
    rw [hres] at hv
    cases hv
  | some v =>
    refine .query_bind fun val hv => ?_
    replace hv := Func.value_eq_ok.1 hv
    cases hu : val.isUnused with
    | false => exact .inl ⟨.valueInUse v val.userCount, rfl⟩
    | true =>
      refine .inr ⟨⟨⟩, _, hrest, data, hi, ?_, rfl⟩
      intro w val' hw hget
      rw [hres] at hw
      obtain rfl := Option.some.inj hw
      rw [hv] at hget
      obtain rfl := Option.some.inj hget
      exact hu

/-- The conditions under which an operation can be built. -/
theorem checkOperation_ok {opcode : Opcode} {operands : List ValueId}
    (h : checkOperation opcode operands f = .ok ()) :
    (∀ v ∈ operands, ∃ val, f.values.get? v = some val) ∧
      ∀ t ∈ opcode.targets, ∃ data, f.blocks.get? t = some data := by
  unfold checkOperation at h
  dsimp only at h
  split at h
  · obtain ⟨_, hops, h⟩ := bind_eq_ok.1 h
    have htargets : opcode.targets.forM (fun b => discard (f.block b)) = .ok () := by
      split at h
      · split at h
        · exact h
        · obtain ⟨_, -, h⟩ := bind_eq_ok.1 h
          split at h
          · cases h
          · exact h
      · exact h
    refine ⟨fun v hv => ?_, fun t ht => ?_⟩
    · obtain ⟨val, hval⟩ := discard_eq_ok.1 (forM_eq_ok.1 hops v hv)
      exact ⟨val, Func.value_eq_ok.1 hval⟩
    · obtain ⟨data, hdata⟩ := discard_eq_ok.1 (forM_eq_ok.1 htargets t ht)
      exact ⟨data, Func.block_eq_ok.1 hdata⟩
  · cases h

theorem place_eq (f : Func) (b : BlockId) (position : Nat) (opcode : Opcode)
    (operands : List ValueId) :
    (place b position opcode operands f).2 =
      { f with
        values := operands.foldl (fun a v => a.modify v (·.addUses (.inst f.insts.next) 1))
          (f.withResult opcode).values
        insts := f.insts.push
          { opcode, operands, result := opcode.resultKind.map fun _ => f.values.next, block := b }
        blocks := f.blocks.modify b fun d =>
          { d with insts := d.insts.insertIdx position f.insts.next }
        dominance := if opcode.isTerminator then none else f.dominance } := by
  unfold place
  dsimp only
  rw [Func.foldl_modifyValue]
  unfold Func.withResult
  cases opcode.resultKind <;> cases opcode.isTerminator <;> rfl

theorem insertAt_yields (f : Func) (b : BlockId) (position : Nat) (opcode : Opcode)
    (operands : List ValueId) :
    (insertAt b position opcode operands).Yields f fun i g =>
      checkOperation opcode operands f = .ok () ∧ (i, g) = place b position opcode operands f := by
  refine .query_bind fun _ hc => ?_
  exact .modifyGet ⟨hc, rfl⟩

theorem append_yields (f : Func) (b : BlockId) (opcode : Opcode) (operands : List ValueId) :
    (append b opcode operands).Yields f fun i g =>
      ∃ data, f.blocks.get? b = some data ∧ f.terminator b = .ok none ∧
        checkOperation opcode operands f = .ok () ∧
        (i, g) = place b data.insts.length opcode operands f := by
  refine .query_bind fun term ht => ?_
  cases term with
  | some t => exact .inl ⟨.terminatorExists b, rfl⟩
  | none =>
    refine .query_bind fun data hb => ?_
    exact (insertAt_yields f b data.insts.length opcode operands).imp
      fun i g h => ⟨data, Func.block_eq_ok.1 hb, ht, h⟩

theorem insertBefore_yields (f : Func) (before : InstId) (opcode : Opcode)
    (operands : List ValueId) :
    (insertBefore before opcode operands).Yields f fun i g =>
      ∃ data block position, f.insts.get? before = some data ∧
        f.blocks.get? data.block = some block ∧ block.position before = some position ∧
        opcode.isTerminator = false ∧ checkOperation opcode operands f = .ok () ∧
        (i, g) = place data.block position opcode operands f := by
  cases hterm : opcode.isTerminator with
  | true =>
    refine .inl ⟨.invariant (.insertsTerminator opcode before), ?_⟩
    simp [insertBefore, hterm]
  | false =>
    unfold insertBefore
    rw [hterm]
    refine .query_bind fun data hi => .query_bind fun block hb => ?_
    cases hpos : block.position before with
    | none => exact .throw _
    | some position =>
      exact (insertAt_yields f data.block position opcode operands).imp
        fun i g h => ⟨data, block, position, Func.inst_eq_ok.1 hi, Func.block_eq_ok.1 hb, hpos,
          rfl, h⟩

theorem retarget_yields (f : Func) (b old new : BlockId) :
    (retarget b old new).Yields f fun _ g =>
      ∃ data term inst, f.blocks.get? new = some data ∧ f.terminator b = .ok (some term) ∧
        f.insts.get? term = some inst ∧
        g = if inst.opcode.targets.count old = 0 then f.withTarget term old new
          else (f.withTarget term old new).invalidateDominance := by
  refine .query_bind fun data hnew => .query_bind fun term? hterm => ?_
  cases term? with
  | none => exact .throw _
  | some term =>
    refine .query_bind fun inst hi => ?_
    exact .inr ⟨_, _, rfl, data, term, inst, Func.block_eq_ok.1 hnew, hterm, Func.inst_eq_ok.1 hi,
      rfl⟩

end Edit

end Midend
