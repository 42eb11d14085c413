import Mathlib.Logic.Relation
import Midend.Proofs.Arena
import Midend.Proofs.Edit.Cached

namespace Midend

/-- How each live value is defined, and the value that stands for each constant. -/
structure Ledger where
  definitions : Arena .value Definition
  constants : OrderedMap ConstId ValueId

namespace Ledger

def define (l : Ledger) (d : Definition) : Ledger := { l with definitions := l.definitions.push d }

def enter (l : Ledger) (k : ConstId) : Ledger :=
  ⟨l.definitions.push (.const k), l.constants.insert k l.definitions.next⟩

def strike (l : Ledger) (v : ValueId) (d : Definition) : Ledger :=
  ⟨l.definitions.erase v, match d with
    | .const k => l.constants.erase k
    | _ => l.constants⟩

/-- What an edit can do. A constant is only added if there is no live value for it. -/
inductive Step (l : Ledger) : Ledger → Prop where
  | define {d : Definition} (other : ∀ k, d ≠ .const k) : Step l (l.define d)
  | enter {k : ConstId} (absent : (l.constants.get? k).filter l.definitions.contains = none) :
      Step l (l.enter k)
  | strike {v : ValueId} {d : Definition} (live : l.definitions.get? v = some d) :
      Step l (l.strike v d)

/-- The table of constants has the live ones and no others. -/
def Agrees (l : Ledger) : Prop :=
  ∀ k v, l.constants.get? k = some v ↔ l.definitions.get? v = some (.const k)

variable {l m : Ledger} {d : Definition} {k : ConstId} {v : ValueId}

theorem Agrees.define (h : l.Agrees) (other : ∀ k, d ≠ .const k) : (l.define d).Agrees := by
  intro k v
  rw [Ledger.define, Arena.get?_push, h k v]
  split
  · rename_i heq
    rw [heq, Arena.get?_next, Option.some.injEq]
    exact iff_of_false nofun (other k)
  · rfl

theorem Agrees.absent (h : l.Agrees)
    (absent : (l.constants.get? k).filter l.definitions.contains = none) :
    l.constants.get? k = none := by
  cases hk : l.constants.get? k with
  | none => rfl
  | some v =>
    have hlive : l.definitions.contains v = true := by rw [Arena.contains, (h k v).1 hk]; rfl
    rw [hk, Option.filter_some, if_pos hlive] at absent
    cases absent

theorem Agrees.enter (h : l.Agrees) (absent : l.constants.get? k = none) : (l.enter k).Agrees := by
  intro j v
  rw [Ledger.enter, OrderedMap.get?_insert, Arena.get?_push]
  have hj := h j v
  by_cases hjk : j = k
  · subst hjk
    rw [absent] at hj
    by_cases hv : v = l.definitions.next
    · simp [hv]
    · rw [if_pos rfl, if_neg hv, ← hj]
      simpa using Ne.symm hv
  · by_cases hv : v = l.definitions.next
    · subst hv
      rw [if_neg hjk, if_pos rfl, hj, Arena.get?_next]
      simpa using Ne.symm hjk
    · rw [if_neg hjk, if_neg hv, hj]

theorem definitions_strike (l : Ledger) (v : ValueId) (d : Definition) :
    (l.strike v d).definitions = l.definitions.erase v := rfl

theorem get?_constants_strike (l : Ledger) (v : ValueId) (d : Definition) (k : ConstId) :
    (l.strike v d).constants.get? k = if d = .const k then none else l.constants.get? k := by
  cases d with
  | const j =>
    rw [strike, OrderedMap.get?_erase]
    simp only [Definition.const.injEq, eq_comm (a := k)]
  | _ => rfl

theorem Agrees.strike (h : l.Agrees) (live : l.definitions.get? v = some d) :
    (l.strike v d).Agrees := by
  intro k w
  have hk := h k w
  rw [get?_constants_strike, definitions_strike, Arena.get?_erase]
  by_cases hd : d = .const k
  · have hv := (h k v).2 (hd ▸ live)
    rw [if_pos hd]
    split
    · exact iff_of_false nofun nofun
    · rename_i hne
      rw [← hk, hv, Option.some.injEq]
      exact iff_of_false nofun (Ne.symm hne)
  · rw [if_neg hd, hk]
    split
    · rename_i heq
      rw [heq, live, Option.some.injEq]
      exact iff_of_false hd nofun
    · rfl

theorem Step.agrees (hs : l.Step m) (h : l.Agrees) : m.Agrees := by
  cases hs with
  | define other => exact h.define other
  | enter absent => exact h.enter (h.absent absent)
  | strike live => exact h.strike live

theorem Agrees.run (h : l.Agrees) (hrun : Relation.ReflTransGen Step l m) : m.Agrees := by
  induction hrun with
  | refl => exact h
  | tail _ hs ih => exact hs.agrees ih

/-- The handles that are out mean in `m` what they mean in `l`, or nothing any more. -/
structure Before (l m : Ledger) : Prop where
  size : l.definitions.size ≤ m.definitions.size
  get? : ∀ v : ValueId, v.index < l.definitions.size →
    m.definitions.get? v = l.definitions.get? v ∨ m.definitions.get? v = none

theorem Before.push (l : Ledger) (d : Definition) (constants : OrderedMap ConstId ValueId) :
    l.Before ⟨l.definitions.push d, constants⟩ := by
  refine ⟨by simp, fun v hv => .inl ?_⟩
  rw [Arena.get?_push, if_neg]
  rintro rfl
  exact Nat.lt_irrefl _ hv

theorem Step.before (hs : l.Step m) : l.Before m := by
  cases hs with
  | define => exact .push l _ _
  | enter => exact .push l _ _
  | strike =>
    refine ⟨by simp [definitions_strike], fun w _ => ?_⟩
    rw [definitions_strike, Arena.get?_erase]
    split
    · exact .inr rfl
    · exact .inl rfl

theorem Before.of_run (hrun : Relation.ReflTransGen Step l m) : l.Before m := by
  induction hrun with
  | refl => exact ⟨Nat.le_refl _, fun _ _ => .inl rfl⟩
  | tail _ hs ih =>
    refine ⟨Nat.le_trans ih.size hs.before.size, fun v hv => ?_⟩
    rcases hs.before.get? v (Nat.lt_of_lt_of_le hv ih.size) with heq | hnone
    · exact (ih.get? v hv).imp heq.trans heq.trans
    · exact .inr hnone

end Ledger

namespace Func

variable {f g : Func}

def ledger (f : Func) : Ledger := ⟨f.values.map (·.definition), f.constants⟩

def Evolves (f g : Func) : Prop := Relation.ReflTransGen Ledger.Step f.ledger g.ledger

theorem Evolves.refl (f : Func) : f.Evolves f := Relation.ReflTransGen.refl

theorem Evolves.of_ledger (hg : f.Evolves g) {h : Func} (heq : h.ledger = g.ledger) :
    f.Evolves h := by
  rw [Evolves, heq]
  exact hg

theorem Evolves.step (hg : f.Evolves g) {h : Func} (hs : g.ledger.Step h.ledger) : f.Evolves h :=
  hg.tail hs

theorem get?_ledger (f : Func) (v : ValueId) :
    f.ledger.definitions.get? v = (f.values.get? v).map (·.definition) := Arena.get?_map _ _ _

theorem contains_ledger (f : Func) : f.ledger.definitions.contains = f.values.contains := by
  funext v
  rw [Arena.contains, get?_ledger, Option.isSome_map, Arena.contains]

theorem ledger_pushValue (f : Func) (kind : ValueKind) (d : Definition) :
    (f.pushValue kind d).ledger = f.ledger.define d := by
  rw [ledger, pushValue, Arena.map_push]
  rfl

theorem ledger_modifyValue (f : Func) (v : ValueId) {u : Value → Value}
    (hu : ∀ val, (u val).definition = val.definition) : (f.modifyValue v u).ledger = f.ledger := by
  rw [ledger, modifyValue, Arena.map_modify f.values v hu]
  rfl

theorem ledger_foldl_modifyValue {u : Value → Value} (hu : ∀ val, (u val).definition =
    val.definition) (vs : List ValueId) (f : Func) :
    (vs.foldl (fun f v => f.modifyValue v u) f).ledger = f.ledger := by
  induction vs generalizing f with
  | nil => rfl
  | cons v vs ih => rw [List.foldl_cons, ih, ledger_modifyValue f v hu]

theorem ledger_releaseUses (f : Func) (user : User) (vs : List ValueId) :
    (f.releaseUses user vs).ledger = f.ledger :=
  ledger_foldl_modifyValue (fun val => Value.definition_dropUses val user) vs f

theorem ledger_moveUse (f : Func) (user : User) (old new : Option ValueId) :
    (f.moveUse user old new).ledger = f.ledger := by
  have hnew : ∀ g : Func, (g.moveUse user none new).ledger = g.ledger := by
    intro g
    cases new with
    | none => rfl
    | some v => exact ledger_modifyValue g v fun val => Value.definition_addUses val user 1
  cases old with
  | none => exact hnew f
  | some v =>
    exact (hnew _).trans (ledger_modifyValue f v fun val => Value.definition_dropUse val user)

end Func

namespace Edit

open Func

variable {f : Func}

theorem keeps_of_ledger {u : Func → Func} (h : ∀ g, (u g).ledger = g.ledger) :
    (modify u : Edit PUnit).Keeps f.Evolves := .modify fun g hg => hg.of_ledger (h g)

theorem newValue_evolves (kind : ValueKind) {d : Definition} (hd : ∀ k, d ≠ .const k) :
    (newValue kind d).Keeps f.Evolves := fun g hg =>
  hg.step (ledger_pushValue g kind d ▸ .define hd)

theorem addArgument_evolves : addArgument.Keeps f.Evolves :=
  .bind .get fun _ => .bind (newValue_evolves _ nofun) fun _ =>
    .bind (keeps_of_ledger fun _ => rfl) fun _ => .pure _

theorem addUpvalue_evolves (capture : Capture) : (addUpvalue capture).Keeps f.Evolves := by
  refine .bind .get fun _ => .bind (newValue_evolves _ nofun) fun _ =>
    .bind (keeps_of_ledger fun g => ?_) fun _ => .pure _
  cases capture <;> rfl

/-- A constant is entered unless a live value stands for it. -/
theorem constant_apply (g : Func) (k : ConstId) :
    (∃ v, (g.constantValue k).filter g.values.contains = some v ∧
      (constant k).apply g = (.ok v, g)) ∨
    ((g.constantValue k).filter g.values.contains = none ∧
      ∃ h, (constant k).apply g = (.ok g.values.next, h) ∧ h.ledger = g.ledger.enter k) := by
  simp only [constant, apply_bind, apply_get]
  cases hk : (g.constantValue k).filter g.values.contains with
  | some v => exact .inl ⟨v, rfl, rfl⟩
  | none =>
    have hpush := congrArg Ledger.definitions (ledger_pushValue g .value (.const k))
    refine .inr ⟨rfl, _, rfl, congrArg₂ Ledger.mk hpush ?_⟩
    exact congrArg (g.constants.insert k) (Arena.next_map _ _).symm

theorem constant_evolves (k : ConstId) : (constant k).Keeps f.Evolves := by
  intro g hg
  obtain ⟨v, -, hrun⟩ | ⟨habsent, h, hrun, hledger⟩ := constant_apply g k
  · rwa [hrun]
  · rw [hrun]
    refine hg.step (hledger ▸ .enter ?_)
    rwa [contains_ledger]

theorem forceDestroy_ledger {g : Func} {v : ValueId} {val : Value}
    (hval : g.values.get? v = some val) :
    ((forceDestroy v).apply g).2.ledger = g.ledger.strike v val.definition := by
  simp only [forceDestroy, apply_bind, apply_query, value_eq_ok.2 hval, apply_modify]
  cases val.definition <;> exact congrArg₂ Ledger.mk (Arena.map_erase _ _ _) rfl

theorem forceDestroy_evolves (v : ValueId) : (forceDestroy v).Keeps f.Evolves := by
  intro g hg
  cases hval : g.values.get? v with
  | none =>
    have hno : g.value v = .error (.noValue v) := by rw [value, hval]
    rw [forceDestroy, apply_bind, apply_query, hno]
    exact hg
  | some val =>
    have hlive : g.ledger.definitions.get? v = some val.definition := by
      rw [get?_ledger, hval, Option.map_some]
    exact hg.step (forceDestroy_ledger hval ▸ .strike hlive)

theorem removalKeeps_evolves : RemovalKeeps f.Evolves where
  eraseBlock _ _ hg := hg.of_ledger rfl
  erasePhi _ _ hg := hg.of_ledger rfl
  eraseInst _ _ hg := hg.of_ledger rfl
  release g user vs hg := hg.of_ledger (ledger_releaseUses g user vs)
  forceDestroy := forceDestroy_evolves
  removePhiSource p pred g hg := by
    refine (removePhiSource_yields g p pred).imp ?_ |>.snd hg
    rintro _ h ⟨phi, -, -, rfl⟩
    exact hg.of_ledger (ledger_moveUse ..)
  invalidate _ hg := hg.of_ledger rfl

theorem addPhi_evolves (b : BlockId) : (addPhi b).Keeps f.Evolves :=
  .bind (.query _) fun _ => .bind .get fun _ => .bind (newValue_evolves _ nofun) fun _ =>
    .bind (keeps_of_ledger fun _ => rfl) fun _ => .pure _

theorem setPhiSource_evolves (p : PhiId) (pred : BlockId) (v : ValueId) :
    (setPhiSource p pred v).Keeps f.Evolves := by
  intro g hg
  refine (setPhiSource_yields g p pred v).imp ?_ |>.snd hg
  rintro _ h ⟨val, data, phi, -, -, -, rfl⟩
  exact hg.of_ledger (ledger_moveUse ..)

theorem setOperand_evolves (i : InstId) (index : Nat) (v : ValueId) :
    (setOperand i index v).Keeps f.Evolves := by
  intro g hg
  refine (setOperand_yields g i index v).imp ?_ |>.snd hg
  rintro _ h ⟨val, inst, old, -, -, -, rfl⟩
  split
  · exact hg
  · exact hg.of_ledger (ledger_moveUse ..)

theorem removePhi_evolves (p : PhiId) : (removePhi p).Keeps f.Evolves := by
  refine .bind (.query _) fun _ => .bind (.query _) fun _ => ?_
  split
  · exact .throw _
  · exact .bind (removalKeeps_evolves.discardPhi p) fun _ => keeps_of_ledger fun _ => rfl

theorem removeInst_evolves (i : InstId) : (removeInst i).Keeps f.Evolves := by
  have hrest : ∀ data : Inst, (discardInst i >>= fun _ => modify fun f =>
      let f := { f with
        blocks := f.blocks.modify data.block fun d => { d with insts := d.insts.filter (· ≠ i) } }
      if data.isTerminator then f.invalidateDominance else f : Edit PUnit).Keeps f.Evolves := by
    intro data
    refine .bind (removalKeeps_evolves.discardInst i) fun _ => keeps_of_ledger fun g => ?_
    dsimp only
    split <;> rfl
  refine .bind (.query _) fun data => ?_
  cases data.result with
  | none => exact hrest data
  | some result =>
    refine .bind (.query _) fun val => ?_
    split
    · exact hrest data
    · exact .bind (.throw _) fun _ => hrest data

theorem replaceIn_evolves (old new : ValueId) (user : User) (count : Nat) :
    (replaceIn old new user count).Keeps f.Evolves := by
  have huses : (modify fun f => (f.modifyValue old (·.dropUses user)).modifyValue new
      (·.addUses user count) : Edit PUnit).Keeps f.Evolves := by
    refine keeps_of_ledger fun g => (ledger_modifyValue _ _ fun val => ?_).trans
      (ledger_modifyValue _ _ fun val => Value.definition_dropUses val user)
    exact Value.definition_addUses val user count
  cases user with
  | inst i =>
    exact .bind (.query _) fun _ => .bind (keeps_of_ledger fun _ => rfl) fun _ =>
      .bind (.pure _) fun _ => .bind huses fun _ => .pure _
  | phi p =>
    exact .bind (.query _) fun _ => .bind (keeps_of_ledger fun _ => rfl) fun _ =>
      .bind (.pure _) fun _ => .bind huses fun _ => .pure _

theorem replaceAllUses_evolves (old new : ValueId) :
    (replaceAllUses old new).Keeps f.Evolves := by
  unfold replaceAllUses
  split
  · exact .pure _
  · exact .bind (.query _) fun _ => .bind (.query _) fun _ => .foldlM
      (fun n (u : User × Nat) => .bind (replaceIn_evolves old new u.1 u.2) fun _ => .pure _) _ _

theorem place_evolves {g : Func} (hg : f.Evolves g) (b : BlockId) (position : Nat)
    (opcode : Opcode) (operands : List ValueId) :
    f.Evolves (place b position opcode operands g).2 := by
  have hplace : (place b position opcode operands g).2.ledger = (g.withResult opcode).ledger := by
    have hconstants : (g.withResult opcode).constants = g.constants := by
      unfold withResult
      split <;> rfl
    have huses := ledger_foldl_modifyValue
      (fun val => Value.definition_addUses val (.inst g.insts.next) 1) operands
      (g.withResult opcode)
    rw [foldl_modifyValue] at huses
    rw [← huses, place_eq]
    simp only [ledger, hconstants]
  refine Evolves.of_ledger ?_ hplace
  unfold withResult
  split
  · exact hg.step (ledger_pushValue .. ▸ .define nofun)
  · exact hg

theorem append_evolves (b : BlockId) (opcode : Opcode) (operands : List ValueId) :
    (append b opcode operands).Keeps f.Evolves := by
  intro g hg
  refine (append_yields g b opcode operands).imp ?_ |>.snd hg
  rintro i h ⟨data, -, -, -, heq⟩
  obtain ⟨-, rfl⟩ := Prod.mk.inj heq
  exact place_evolves hg b _ opcode operands

theorem insertBefore_evolves (before : InstId) (opcode : Opcode) (operands : List ValueId) :
    (insertBefore before opcode operands).Keeps f.Evolves := by
  intro g hg
  refine (insertBefore_yields g before opcode operands).imp ?_ |>.snd hg
  rintro i h ⟨inst, data, position, -, -, -, -, -, heq⟩
  obtain ⟨-, rfl⟩ := Prod.mk.inj heq
  exact place_evolves hg _ position opcode operands

theorem dominance_evolves : dominance.Keeps f.Evolves := by
  refine .bind .get fun g => ?_
  split
  · exact .pure _
  · exact .bind (.query _) fun _ => .bind (keeps_of_ledger fun _ => rfl) fun _ => .pure _

theorem setEntry_evolves (b : BlockId) : (setEntry b).Keeps f.Evolves :=
  .bind (.query _) fun _ => keeps_of_ledger fun _ => rfl

theorem retarget_evolves (b old new : BlockId) : (retarget b old new).Keeps f.Evolves := by
  intro g hg
  refine (retarget_yields g b old new).imp ?_ |>.snd hg
  rintro _ h ⟨data, term, inst, -, -, -, rfl⟩
  split <;> exact hg.of_ledger rfl

end Edit

open Edit

theorem Call.run_evolves {f : Func} (c : Call) (g : Func) (hg : f.Evolves g) :
    f.Evolves (c.run g) := by
  have happend : ∀ b opcode operands, (Edit.appendValue b opcode operands).Keeps f.Evolves := by
    intro b opcode operands g hg
    rw [appendValue_snd]
    exact append_evolves b opcode operands g hg
  suffices hkeeps : c.edit.Keeps f.Evolves from hkeeps g hg
  cases c with
  | addArgument => exact .discard addArgument_evolves
  | setVariadic on => exact keeps_of_ledger fun _ => rfl
  | addUpvalue capture => exact .discard (addUpvalue_evolves capture)
  | constant k => exact .discard (constant_evolves k)
  | addBlock => exact .discard fun _ hg => hg.of_ledger rfl
  | setEntry b => exact setEntry_evolves b
  | retarget b old new => exact .discard (retarget_evolves b old new)
  | removeBlock b => exact removalKeeps_evolves.removeBlock b
  | removeUnreachable => exact .discard removalKeeps_evolves.removeUnreachable
  | append b opcode operands => exact .discard (append_evolves b opcode operands)
  | appendValue b opcode operands => exact .discard (happend b opcode operands)
  | vararg b => exact .discard (.bind .get fun g => happend b _ [])
  | insertBefore before opcode operands =>
    exact .discard (insertBefore_evolves before opcode operands)
  | removeInst i => exact removeInst_evolves i
  | setOperand i index v => exact setOperand_evolves i index v
  | replaceAllUses old new => exact .discard (replaceAllUses_evolves old new)
  | addPhi b => exact .discard (addPhi_evolves b)
  | setPhiSource p pred v => exact setPhiSource_evolves p pred v
  | removePhiSource p pred => exact .discard (removalKeeps_evolves.removePhiSource p pred)
  | removePhi p => exact removePhi_evolves p
  | dominance => exact .discard dominance_evolves
  | invalidateDominance => exact keeps_of_ledger fun _ => rfl
  | setDominanceLimit limit => exact keeps_of_ledger fun g => by split <;> rfl
  | verify =>
    intro g hg
    rw [edit, verify_apply]
    exact dominance_evolves g hg

namespace Action

theorem run_evolves (a : Action) {f g : Func} (hg : f.Evolves g) : f.Evolves (a.run g) := by
  cases ha : a.isForced with
  | true =>
    cases a with
    | forceDestroy v => exact forceDestroy_evolves v g hg
    | _ => cases ha
  | false => exact edit_keeps Call.run_evolves ha g hg

theorem build_evolves (name : String) (actions : List Action) :
    (Func.new name).Evolves (build name actions) := by
  suffices hrun : ∀ g : Func, (Func.new name).Evolves g →
      (Func.new name).Evolves (actions.foldl (fun f a => a.run f) g) from hrun _ (.refl _)
  induction actions with
  | nil => exact fun _ hg => hg
  | cons a actions ih => exact fun g hg => ih _ (a.run_evolves hg)

end Action

theorem Func.new_agrees (name : String) : (Func.new name).ledger.Agrees := by
  intro k v
  rw [Func.get?_ledger]
  exact iff_of_false nofun nofun

end Midend
