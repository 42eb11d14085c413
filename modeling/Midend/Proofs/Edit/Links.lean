import Mathlib.Data.List.Nodup
import Midend.Proofs.Edit.Uses

/-!
Links inside a function: blocks list live instructions and phis of their own, results name what
defines them, terminators stand last and target live blocks. While blocks are taken apart some users
are loose: nothing lists them any more, and they may target blocks that are gone.
-/

namespace Midend

def Inst.shape (i : Inst) : Inst := { i with operands := [] }

def Phi.shape (p : Phi) : Phi := { p with sources := ∅ }

def Value.shape (v : Value) : Value := { v with uses := ∅ }

theorem Arena.contains_of_map {e : Entity} {α β : Type} {a b : Arena e α} {k : Handle e} {u : α → β}
    (h : (b.get? k).map u = (a.get? k).map u) : b.contains k = a.contains k := by
  rw [contains, contains, ← Option.isSome_map (f := u), h, Option.isSome_map]

namespace Func

variable {f g : Func} {loose : User → Prop}

/-- Everything points at something live that points back, up to the loose users. -/
structure Linked (loose : User → Prop) (f : Func) : Prop where
  entry_live : ∃ data, f.blocks.get? f.entry = some data
  listed_inst : ∀ b data i, f.blocks.get? b = some data → i ∈ data.insts →
    ∃ inst, f.insts.get? i = some inst ∧ inst.block = b
  listed_phi : ∀ b data p, f.blocks.get? b = some data → p ∈ data.phis →
    ∃ phi, f.phis.get? p = some phi ∧ phi.block = b
  insts_nodup : ∀ b data, f.blocks.get? b = some data → data.insts.Nodup
  phis_nodup : ∀ b data, f.blocks.get? b = some data → data.phis.Nodup
  inst_listed : ∀ i inst, f.insts.get? i = some inst → ¬ loose (.inst i) →
    ∃ data, f.blocks.get? inst.block = some data ∧ i ∈ data.insts
  phi_listed : ∀ p phi, f.phis.get? p = some phi → ¬ loose (.phi p) →
    ∃ data, f.blocks.get? phi.block = some data ∧ p ∈ data.phis
  target_live : ∀ i inst t, f.insts.get? i = some inst → ¬ loose (.inst i) →
    t ∈ inst.opcode.targets → ∃ data, f.blocks.get? t = some data
  inst_result : ∀ i inst v, f.insts.get? i = some inst → inst.result = some v →
    ∃ val, f.values.get? v = some val ∧ val.definition = .inst i
  phi_result : ∀ p phi, f.phis.get? p = some phi →
    ∃ val, f.values.get? phi.result = some val ∧ val.definition = .phi p
  inst_origin : ∀ v val i, f.values.get? v = some val → val.definition = .inst i →
    ∃ inst, f.insts.get? i = some inst ∧ inst.result = some v
  phi_origin : ∀ v val p, f.values.get? v = some val → val.definition = .phi p →
    ∃ phi, f.phis.get? p = some phi ∧ phi.result = v
  terminator_last : ∀ b data i inst, f.blocks.get? b = some data → i ∈ data.insts →
    f.insts.get? i = some inst → inst.isTerminator = true → data.insts.getLast? = some i
  argument_iff : ∀ v, v ∈ f.arguments ↔
    ∃ val n, f.values.get? v = some val ∧ val.definition = .argument n

/-- Two functions that differ in operands, sources and use lists at most. -/
structure SameShape (f g : Func) : Prop where
  entry : g.entry = f.entry
  blocks : g.blocks = f.blocks
  arguments : g.arguments = f.arguments
  dominance : g.dominance = f.dominance
  dominanceLimit : g.dominanceLimit = f.dominanceLimit
  inst : ∀ i, (g.insts.get? i).map Inst.shape = (f.insts.get? i).map Inst.shape
  phi : ∀ p, (g.phis.get? p).map Phi.shape = (f.phis.get? p).map Phi.shape
  value : ∀ v, (g.values.get? v).map Value.shape = (f.values.get? v).map Value.shape

namespace SameShape

theorem refl (f : Func) : f.SameShape f := ⟨rfl, rfl, rfl, rfl, rfl, fun _ => rfl, fun _ => rfl,
  fun _ => rfl⟩

theorem trans {h : Func} (hfg : f.SameShape g) (hgh : g.SameShape h) : f.SameShape h where
  entry := hgh.entry.trans hfg.entry
  blocks := hgh.blocks.trans hfg.blocks
  arguments := hgh.arguments.trans hfg.arguments
  dominance := hgh.dominance.trans hfg.dominance
  dominanceLimit := hgh.dominanceLimit.trans hfg.dominanceLimit
  inst i := (hgh.inst i).trans (hfg.inst i)
  phi p := (hgh.phi p).trans (hfg.phi p)
  value v := (hgh.value v).trans (hfg.value v)

theorem symm (h : f.SameShape g) : g.SameShape f where
  entry := h.entry.symm
  blocks := h.blocks.symm
  arguments := h.arguments.symm
  dominance := h.dominance.symm
  dominanceLimit := h.dominanceLimit.symm
  inst i := (h.inst i).symm
  phi p := (h.phi p).symm
  value v := (h.value v).symm

theorem get?_inst (h : f.SameShape g) {i : InstId} {inst : Inst} (hi : g.insts.get? i = some inst) :
    ∃ inst', f.insts.get? i = some inst' ∧ inst'.opcode = inst.opcode ∧
      inst'.result = inst.result ∧ inst'.block = inst.block := by
  have hs := h.inst i
  rw [hi] at hs
  obtain ⟨inst', hi', heq⟩ := Option.map_eq_some_iff.1 hs.symm
  obtain ⟨hop, -, hres, hblock⟩ := Inst.mk.inj heq
  exact ⟨inst', hi', hop, hres, hblock⟩

theorem get?_phi (h : f.SameShape g) {p : PhiId} {phi : Phi} (hp : g.phis.get? p = some phi) :
    ∃ phi', f.phis.get? p = some phi' ∧ phi'.block = phi.block ∧ phi'.result = phi.result := by
  have hs := h.phi p
  rw [hp] at hs
  obtain ⟨phi', hp', heq⟩ := Option.map_eq_some_iff.1 hs.symm
  obtain ⟨hblock, hres, -⟩ := Phi.mk.inj heq
  exact ⟨phi', hp', hblock, hres⟩

theorem get?_value (h : f.SameShape g) {v : ValueId} {val : Value}
    (hv : g.values.get? v = some val) :
    ∃ val', f.values.get? v = some val' ∧ val'.definition = val.definition ∧
      val'.kind = val.kind := by
  have hs := h.value v
  rw [hv] at hs
  obtain ⟨val', hv', heq⟩ := Option.map_eq_some_iff.1 hs.symm
  obtain ⟨hkind, hdef, -⟩ := Value.mk.inj heq
  exact ⟨val', hv', hdef, hkind⟩

theorem contains_inst (h : f.SameShape g) (i : InstId) :
    g.insts.contains i = f.insts.contains i :=
  Arena.contains_of_map (h.inst i)

theorem contains_value (h : f.SameShape g) (v : ValueId) :
    g.values.contains v = f.values.contains v :=
  Arena.contains_of_map (h.value v)

end SameShape

theorem Linked.congr (h : f.Linked loose) (hs : f.SameShape g) : g.Linked loose where
  entry_live := by
    rw [hs.entry, hs.blocks]
    exact h.entry_live
  listed_inst b data i hb hi := by
    obtain ⟨inst, hget, hblock⟩ := h.listed_inst b data i (hs.blocks ▸ hb) hi
    obtain ⟨inst', hget', -, -, hblock'⟩ := hs.symm.get?_inst hget
    exact ⟨inst', hget', hblock'.trans hblock⟩
  listed_phi b data p hb hp := by
    obtain ⟨phi, hget, hblock⟩ := h.listed_phi b data p (hs.blocks ▸ hb) hp
    obtain ⟨phi', hget', hblock', -⟩ := hs.symm.get?_phi hget
    exact ⟨phi', hget', hblock'.trans hblock⟩
  insts_nodup b data hb := h.insts_nodup b data (hs.blocks ▸ hb)
  phis_nodup b data hb := h.phis_nodup b data (hs.blocks ▸ hb)
  inst_listed i inst hi hl := by
    obtain ⟨inst', hi', -, -, hblock⟩ := hs.get?_inst hi
    rw [hs.blocks, ← hblock]
    exact h.inst_listed i inst' hi' hl
  phi_listed p phi hp hl := by
    obtain ⟨phi', hp', hblock, -⟩ := hs.get?_phi hp
    rw [hs.blocks, ← hblock]
    exact h.phi_listed p phi' hp' hl
  target_live i inst t hi hl ht := by
    obtain ⟨inst', hi', hop, -, -⟩ := hs.get?_inst hi
    rw [hs.blocks]
    exact h.target_live i inst' t hi' hl (hop ▸ ht)
  inst_result i inst v hi hr := by
    obtain ⟨inst', hi', -, hres, -⟩ := hs.get?_inst hi
    obtain ⟨val, hv, hd⟩ := h.inst_result i inst' v hi' (hres.trans hr)
    obtain ⟨val', hv', hd', -⟩ := hs.symm.get?_value hv
    exact ⟨val', hv', hd'.trans hd⟩
  phi_result p phi hp := by
    obtain ⟨phi', hp', -, hres⟩ := hs.get?_phi hp
    obtain ⟨val, hv, hd⟩ := h.phi_result p phi' hp'
    obtain ⟨val', hv', hd', -⟩ := hs.symm.get?_value hv
    exact ⟨val', hres ▸ hv', hd'.trans hd⟩
  inst_origin v val i hv hd := by
    obtain ⟨val', hv', hd', -⟩ := hs.get?_value hv
    obtain ⟨inst, hi, hres⟩ := h.inst_origin v val' i hv' (hd'.trans hd)
    obtain ⟨inst', hi', -, hres', -⟩ := hs.symm.get?_inst hi
    exact ⟨inst', hi', hres'.trans hres⟩
  phi_origin v val p hv hd := by
    obtain ⟨val', hv', hd', -⟩ := hs.get?_value hv
    obtain ⟨phi, hp, hres⟩ := h.phi_origin v val' p hv' (hd'.trans hd)
    obtain ⟨phi', hp', -, hres'⟩ := hs.symm.get?_phi hp
    exact ⟨phi', hp', hres'.trans hres⟩
  terminator_last b data i inst hb hmem hi ht := by
    obtain ⟨inst', hi', hop, -, -⟩ := hs.get?_inst hi
    have ht' : inst'.isTerminator = true := by
      rw [Inst.isTerminator, hop]
      exact ht
    exact h.terminator_last b data i inst' (hs.blocks ▸ hb) hmem hi' ht'
  argument_iff v := by
    rw [hs.arguments, h.argument_iff v]
    constructor
    · rintro ⟨val, n, hv, hd⟩
      obtain ⟨val', hv', hd', -⟩ := hs.symm.get?_value hv
      exact ⟨val', n, hv', hd'.trans hd⟩
    · rintro ⟨val, n, hv, hd⟩
      obtain ⟨val', hv', hd', -⟩ := hs.get?_value hv
      exact ⟨val', n, hv', hd'.trans hd⟩

theorem Linked.of_fields (h : f.Linked loose) (hentry : g.entry = f.entry)
    (hblocks : g.blocks = f.blocks) (hinsts : g.insts = f.insts) (hphis : g.phis = f.phis)
    (hvalues : g.values = f.values) (harg : g.arguments = f.arguments) : g.Linked loose := by
  constructor
  all_goals simp only [hentry, hblocks, hinsts, hphis, hvalues, harg]
  case entry_live => exact h.entry_live
  case listed_inst => exact h.listed_inst
  case listed_phi => exact h.listed_phi
  case insts_nodup => exact h.insts_nodup
  case phis_nodup => exact h.phis_nodup
  case inst_listed => exact h.inst_listed
  case phi_listed => exact h.phi_listed
  case target_live => exact h.target_live
  case terminator_last => exact h.terminator_last
  case inst_result => exact h.inst_result
  case phi_result => exact h.phi_result
  case inst_origin => exact h.inst_origin
  case phi_origin => exact h.phi_origin
  case argument_iff => exact h.argument_iff

theorem map_shape_modify {e : Entity} {α : Type} (a : Arena e α) (k h : Handle e) (u : α → α)
    (shape : α → α) (hu : ∀ x, shape (u x) = shape x) :
    ((a.modify k u).get? h).map shape = (a.get? h).map shape := by
  rw [Arena.get?_modify]
  split
  · rw [Option.map_map]
    congr 1
    exact funext hu
  · rfl

theorem shape_addUses (v : Value) (user : User) (n : Nat) : (v.addUses user n).shape = v.shape := by
  simp [Value.shape]

theorem shape_dropUse (v : Value) (user : User) : (v.dropUse user).shape = v.shape := by
  simp [Value.shape]

theorem shape_dropUses (v : Value) (user : User) : (v.dropUses user).shape = v.shape := rfl

theorem SameShape.modifyValue (f : Func) (v : ValueId) {u : Value → Value}
    (hu : ∀ x, (u x).shape = x.shape) : f.SameShape (f.modifyValue v u) :=
  { refl f with value := fun w => map_shape_modify f.values v w u Value.shape hu }

theorem SameShape.moveUse (f : Func) (user : User) (old new : Option ValueId) :
    f.SameShape (f.moveUse user old new) := by
  have hadd : ∀ g : Func, g.SameShape (g.moveUse user none new) := by
    intro g
    cases new with
    | none => exact refl g
    | some n => exact modifyValue g n fun x => shape_addUses x user 1
  cases old with
  | none => exact hadd f
  | some o => exact (modifyValue f o fun x => shape_dropUse x user).trans (hadd _)

theorem SameShape.modifyInst (f : Func) (i : InstId) {u : Inst → Inst}
    (hu : ∀ x, (u x).shape = x.shape) : f.SameShape { f with insts := f.insts.modify i u } :=
  { refl f with inst := fun j => map_shape_modify f.insts i j u Inst.shape hu }

theorem SameShape.modifyPhi (f : Func) (p : PhiId) {u : Phi → Phi}
    (hu : ∀ x, (u x).shape = x.shape) : f.SameShape { f with phis := f.phis.modify p u } :=
  { refl f with phi := fun q => map_shape_modify f.phis p q u Phi.shape hu }

theorem SameShape.withSource (f : Func) (p : PhiId) (old : Option ValueId) (pred : BlockId)
    (v : ValueId) : f.SameShape (f.withSource p old pred v) := by
  refine trans ?_ (moveUse _ _ _ _)
  exact modifyPhi f p fun _ => rfl

theorem SameShape.withoutSource (f : Func) (p : PhiId) (old : Option ValueId) (pred : BlockId) :
    f.SameShape (f.withoutSource p old pred) := by
  refine trans ?_ (moveUse _ _ _ _)
  exact modifyPhi f p fun _ => rfl

theorem SameShape.withOperand (f : Func) (i : InstId) (index : Nat) (old v : ValueId) :
    f.SameShape (f.withOperand i index old v) := by
  refine trans ?_ (moveUse _ _ _ _)
  exact modifyInst f i fun _ => rfl

theorem SameShape.withUser (f : Func) (old new : ValueId) (user : User) (count : Nat) :
    f.SameShape (f.withUser old new user count) := by
  have hslots : ∀ g : Func, g.SameShape
      ((g.modifyValue old (·.dropUses user)).modifyValue new (·.addUses user count)) := fun g =>
    (modifyValue g old fun x => shape_dropUses x user).trans
      (modifyValue _ new fun x => shape_addUses x user count)
  cases user with
  | inst i =>
    refine trans ?_ (hslots _)
    exact modifyInst f i fun _ => rfl
  | phi p =>
    refine trans ?_ (hslots _)
    exact modifyPhi f p fun _ => rfl

theorem Linked.grow (h : f.Linked loose) {kind : ValueKind} {definition : Definition}
    (hi : ∀ i, definition ≠ .inst i) (hp : ∀ p, definition ≠ .phi p) (hentry : g.entry = f.entry)
    (hblocks : g.blocks = f.blocks) (hinsts : g.insts = f.insts) (hphis : g.phis = f.phis)
    (hvalues : g.values = f.values.push { kind, definition })
    (harg : ∀ v, v ∈ g.arguments ↔
      v ∈ f.arguments ∨ v = f.values.next ∧ ∃ n, definition = .argument n) : g.Linked loose := by
  have hkeep : ∀ v val, f.values.get? v = some val → g.values.get? v = some val := by
    intro v val hv
    rw [hvalues, Arena.get?_push, if_neg, hv]
    rintro rfl
    simp at hv
  have hnew : ∀ v val, g.values.get? v = some val →
      v = f.values.next ∧ val.definition = definition ∨ f.values.get? v = some val := by
    intro v val hv
    rw [hvalues, Arena.get?_push] at hv
    split at hv
    · obtain rfl := Option.some.inj hv
      exact .inl ⟨‹_›, rfl⟩
    · exact .inr hv
  constructor
  case entry_live => simpa only [hentry, hblocks] using h.entry_live
  case listed_inst => simpa only [hinsts, hblocks] using h.listed_inst
  case listed_phi => simpa only [hphis, hblocks] using h.listed_phi
  case insts_nodup => simpa only [hblocks] using h.insts_nodup
  case phis_nodup => simpa only [hblocks] using h.phis_nodup
  case inst_listed => simpa only [hinsts, hblocks] using h.inst_listed
  case phi_listed => simpa only [hphis, hblocks] using h.phi_listed
  case target_live => simpa only [hinsts, hblocks] using h.target_live
  case terminator_last => simpa only [hinsts, hblocks] using h.terminator_last
  case inst_result =>
    intro i inst v hget hr
    obtain ⟨val, hv, hd⟩ := h.inst_result i inst v (hinsts ▸ hget) hr
    exact ⟨val, hkeep v val hv, hd⟩
  case phi_result =>
    intro p phi hget
    obtain ⟨val, hv, hd⟩ := h.phi_result p phi (hphis ▸ hget)
    exact ⟨val, hkeep _ val hv, hd⟩
  case inst_origin =>
    intro v val i hv hd
    rcases hnew v val hv with ⟨-, hdef⟩ | hv
    · exact absurd (hdef.symm.trans hd) (hi i)
    · rw [hinsts]
      exact h.inst_origin v val i hv hd
  case phi_origin =>
    intro v val p hv hd
    rcases hnew v val hv with ⟨-, hdef⟩ | hv
    · exact absurd (hdef.symm.trans hd) (hp p)
    · rw [hphis]
      exact h.phi_origin v val p hv hd
  case argument_iff =>
    intro v
    rw [harg, h.argument_iff]
    constructor
    · rintro (⟨val, n, hv, hd⟩ | ⟨rfl, n, hd⟩)
      · exact ⟨val, n, hkeep v val hv, hd⟩
      · exact ⟨{ kind, definition }, n, by rw [hvalues, Arena.get?_push, if_pos rfl], hd⟩
    · rintro ⟨val, n, hv, hd⟩
      rcases hnew v val hv with ⟨hn, hdef⟩ | hv
      · exact .inr ⟨hn, n, hdef.symm.trans hd⟩
      · exact .inl ⟨val, n, hv, hd⟩

theorem Linked.withPhi (h : f.Linked loose) {b : BlockId} {data : Block}
    (hb : f.blocks.get? b = some data) : (f.withPhi b).Linked loose := by
  have hnext : f.phis.get? f.phis.next = none := Arena.get?_next _
  have hvnext : f.values.get? f.values.next = none := Arena.get?_next _
  have hphi : (f.withPhi b).phis.get? f.phis.next =
      some { block := b, result := f.values.next } := by simp [Func.withPhi]
  have hval : (f.withPhi b).values.get? f.values.next =
      some { kind := .value, definition := .phi f.phis.next } := by
    simp [Func.withPhi, Func.pushValue]
  constructor
  case listed_phi =>
    intro c d p hc hp
    by_cases hpn : p = f.phis.next
    · subst hpn
      refine ⟨_, hphi, ?_⟩
      have := h.listed_phi c
      simp only [Func.withPhi, Arena.get?_modify] at hc
      grind
    · have := h.listed_phi c
      simp only [Func.withPhi, Arena.get?_push, Arena.get?_modify] at hc ⊢
      grind
  case phi_result =>
    intro p phi hp
    by_cases hpn : p = f.phis.next
    · subst hpn
      obtain rfl := Option.some.inj (hphi.symm.trans hp)
      exact ⟨_, hval, rfl⟩
    · have := h.phi_result p phi
      simp only [Func.withPhi, Func.pushValue, Arena.get?_push] at hp ⊢
      grind
  case phi_origin =>
    intro v val p hv hd
    by_cases hvn : v = f.values.next
    · subst hvn
      obtain rfl := Option.some.inj (hval.symm.trans hv)
      obtain rfl : f.phis.next = p := by simpa using hd
      exact ⟨_, hphi, rfl⟩
    · have := h.phi_origin v val p
      simp only [Func.withPhi, Func.pushValue, Arena.get?_push] at hv ⊢
      grind
  all_goals simp only [Func.withPhi, Func.pushValue, Arena.get?_push, Arena.get?_modify_eq_some]
  case entry_live => grind [h.entry_live]
  case listed_inst => grind [h.listed_inst]
  case insts_nodup => grind [h.insts_nodup]
  case phis_nodup => grind [h.phis_nodup, h.listed_phi]
  case inst_listed => grind [h.inst_listed]
  case phi_listed => grind [h.phi_listed]
  case target_live => grind [h.target_live]
  case terminator_last => grind [h.terminator_last]
  case inst_result => grind [h.inst_result]
  case inst_origin => grind [h.inst_origin]
  case argument_iff => grind [h.argument_iff]

theorem Linked.not_isTerminator (h : f.Linked loose) {b : BlockId} {data : Block} {i : InstId}
    {inst : Inst} (hb : f.blocks.get? b = some data) (ht : f.terminator b = .ok none)
    (hmem : i ∈ data.insts) (hi : f.insts.get? i = some inst) : inst.isTerminator = false := by
  cases hterm : inst.isTerminator with
  | false => rfl
  | true =>
    have hlast : data.last = some i := h.terminator_last b data i inst hb hmem hi hterm
    have hopen : f.terminator b = .ok (some i) := by
      simp [Func.terminator, Func.block_eq_ok.2 hb, hlast, Func.inst_eq_ok.2 hi, hterm, bind,
        Except.bind, pure, Except.pure]
    rw [ht] at hopen
    cases hopen

theorem definition_foldl_addUses (user : User) (vs : List ValueId) (val : Value) :
    (vs.foldl (fun val _ => val.addUses user 1) val).definition = val.definition := by
  induction vs generalizing val with
  | nil => rfl
  | cons v vs ih => rw [List.foldl_cons, ih, Value.definition_addUses]

/-- The definitions after an instruction is placed: the old ones and that of its result. -/
theorem place_definition (f : Func) (b : BlockId) (position : Nat) (opcode : Opcode)
    (operands : List ValueId) (v : ValueId) (d : Definition) :
    (∃ val, (Edit.place b position opcode operands f).2.values.get? v = some val ∧
        val.definition = d) ↔
      (v = f.values.next ∧ opcode.resultKind.isSome ∧ d = .inst f.insts.next) ∨
        ∃ val, f.values.get? v = some val ∧ val.definition = d := by
  have hfold := get?_foldl_modify (fun _ val => val.addUses (.inst f.insts.next) 1) id operands
    (f.withResult opcode).values v
  have hplace := (congrArg (fun g : Func => g.values.get? v)
    (Edit.place_eq f b position opcode operands)).trans hfold
  have hgrown : (∃ val, (f.withResult opcode).values.get? v = some val ∧ val.definition = d) ↔
      (v = f.values.next ∧ opcode.resultKind.isSome ∧ d = .inst f.insts.next) ∨
        ∃ val, f.values.get? v = some val ∧ val.definition = d := by
    unfold Func.withResult
    cases opcode.resultKind with
    | none => simp
    | some kind =>
      by_cases hv : v = f.values.next
      · simp [Func.pushValue, hv, eq_comm]
      · simp [Func.pushValue, hv]
  rw [hplace, ← hgrown]
  simp only [Option.map_eq_some_iff]
  constructor
  · rintro ⟨_, ⟨val, hval, rfl⟩, hd⟩
    exact ⟨val, hval, (definition_foldl_addUses _ _ val).symm.trans hd⟩
  · rintro ⟨val, hval, hd⟩
    exact ⟨_, ⟨val, hval, rfl⟩, (definition_foldl_addUses _ _ val).trans hd⟩

/-- An instruction in front of the last one leaves it last; one at the end of an open block is
last itself. -/
theorem getLast?_insertIdx {is : List InstId} {position : Nat} (i : InstId) :
    (position < is.length → (is.insertIdx position i).getLast? = is.getLast?) ∧
      (position = is.length → (is.insertIdx position i).getLast? = some i) := by
  constructor
  · intro hpos
    rw [List.getLast?_eq_getElem?, List.getLast?_eq_getElem?,
      List.length_insertIdx_of_le_length (Nat.le_of_lt hpos), List.getElem?_insertIdx_of_gt (by omega)]
    rfl
  · rintro rfl
    rw [List.insertIdx_length_self, List.getLast?_concat]

theorem Linked.place (h : f.Linked loose) {b : BlockId} {data : Block} {position : Nat}
    {opcode : Opcode} (operands : List ValueId) (hb : f.blocks.get? b = some data)
    (hpos : position ≤ data.insts.length)
    (hlast : (opcode.isTerminator = false ∧ position < data.insts.length) ∨
      (f.terminator b = .ok none ∧ position = data.insts.length))
    (ht : ∀ t ∈ opcode.targets, ∃ data, f.blocks.get? t = some data) :
    (Edit.place b position opcode operands f).2.Linked loose := by
  have hnext : f.insts.get? f.insts.next = none := Arena.get?_next _
  have hvnext : f.values.get? f.values.next = none := Arena.get?_next _
  have hdef := place_definition f b position opcode operands
  have hblock : ∀ c d, (Edit.place b position opcode operands f).2.blocks.get? c = some d ↔
      ∃ d', f.blocks.get? c = some d' ∧
        (if c = b then { d' with insts := d'.insts.insertIdx position f.insts.next } else d') = d := by
    intro c d
    rw [Edit.place_eq]
    exact Arena.get?_modify_eq_some
  have hinsts : ∀ j, (Edit.place b position opcode operands f).2.insts.get? j =
      if j = f.insts.next then some ⟨opcode, operands, opcode.resultKind.map fun _ => f.values.next, b⟩
      else f.insts.get? j := by
    intro j
    rw [Edit.place_eq]
    exact Arena.get?_push _ _ _
  have hmem : ∀ j, j ∈ data.insts.insertIdx position f.insts.next ↔
      j = f.insts.next ∨ j ∈ data.insts := fun j => List.mem_insertIdx hpos
  have hfresh : f.insts.next ∉ data.insts := by
    intro hin
    obtain ⟨inst, hget, -⟩ := h.listed_inst b data _ hb hin
    rw [hnext] at hget
    cases hget
  generalize hg : (Edit.place b position opcode operands f).2 = g at *
  have hentry : g.entry = f.entry := by rw [← hg, Edit.place_eq]
  have hphis : g.phis = f.phis := by rw [← hg, Edit.place_eq]
  have harg : g.arguments = f.arguments := by rw [← hg, Edit.place_eq]
  constructor
  all_goals simp only [hentry, hphis, harg, hblock, hinsts, hdef]
  case entry_live => grind [h.entry_live]
  case listed_inst => grind [h.listed_inst]
  case listed_phi => grind [h.listed_phi]
  case insts_nodup =>
    rintro c _ ⟨d, hc, rfl⟩
    split
    · rename_i hcb
      subst hcb
      obtain rfl := Option.some.inj (hb.symm.trans hc)
      exact (List.perm_insertIdx _ _ hpos).nodup_iff.2
        (List.nodup_cons.2 ⟨hfresh, h.insts_nodup c data hc⟩)
    · exact h.insts_nodup c d hc
  case phis_nodup => grind [h.phis_nodup]
  case inst_listed => grind [h.inst_listed]
  case phi_listed => grind [h.phi_listed]
  case target_live => grind [h.target_live]
  -- The new instruction comes last only in an open block, where no other is a terminator.
  case terminator_last =>
    rintro c _ j inst ⟨d, hc, rfl⟩ hj hget hterm
    by_cases hcb : c = b
    · subst hcb
      obtain rfl := Option.some.inj (hb.symm.trans hc)
      rw [if_pos rfl] at hj ⊢
      by_cases hjn : j = f.insts.next
      · subst hjn
        obtain rfl := Option.some.inj ((if_pos rfl).symm.trans hget)
        rcases hlast with ⟨hop, -⟩ | ⟨-, hend⟩
        · exact absurd (hop.symm.trans hterm) (by simp)
        · exact (getLast?_insertIdx f.insts.next).2 hend
      · rw [if_neg hjn] at hget
        have hjd : j ∈ data.insts := ((hmem j).1 hj).resolve_left hjn
        rcases hlast with ⟨-, hlt⟩ | ⟨hopen, -⟩
        · rw [(getLast?_insertIdx f.insts.next).1 hlt]
          exact h.terminator_last c data j inst hc hjd hget hterm
        · exact absurd ((h.not_isTerminator hc hopen hjd hget).symm.trans hterm) (by simp)
    · rw [if_neg hcb] at hj ⊢
      obtain ⟨inst', hget', -⟩ := h.listed_inst c d j hc hj
      have hjn : j ≠ f.insts.next := by
        rintro rfl
        rw [hnext] at hget'
        cases hget'
      rw [if_neg hjn] at hget
      exact h.terminator_last c d j inst hc hj hget hterm
  case inst_result =>
    intro i inst v hi hr
    split at hi
    · obtain rfl := Option.some.inj hi
      obtain ⟨kind, hk, rfl⟩ := Option.map_eq_some_iff.1 hr
      exact .inl ⟨rfl, by rw [hk]; rfl, by simp [*]⟩
    · exact .inr (h.inst_result i inst v hi hr)
  case phi_result => exact fun p phi hp => .inr (h.phi_result p phi hp)
  case inst_origin =>
    intro v val i hv hd
    rcases (hdef v (.inst i)).1 ⟨val, hv, hd⟩ with ⟨rfl, hk, hi⟩ | ⟨old, hold, hd⟩
    · obtain rfl := Definition.inst.inj hi
      refine ⟨_, if_pos rfl, ?_⟩
      obtain ⟨kind, hkind⟩ := Option.isSome_iff_exists.1 hk
      simp [hkind]
    · grind [h.inst_origin]
  case phi_origin =>
    intro v val p hv hd
    rcases (hdef v (.phi p)).1 ⟨val, hv, hd⟩ with ⟨-, -, hi⟩ | ⟨old, hold, hd⟩
    · cases hi
    · exact h.phi_origin v old p hold hd
  case argument_iff =>
    intro v
    rw [h.argument_iff]
    constructor
    · rintro ⟨val, n, hv, hd⟩
      obtain ⟨val', hv', hd'⟩ := (hdef v (.argument n)).2 (.inr ⟨val, hv, hd⟩)
      exact ⟨val', n, hv', hd'⟩
    · rintro ⟨val, n, hv, hd⟩
      rcases (hdef v (.argument n)).1 ⟨val, hv, hd⟩ with ⟨-, -, hi⟩ | ⟨old, hold, hd⟩
      · cases hi
      · exact ⟨old, n, hold, hd⟩

theorem Linked.addBlock (h : f.Linked loose) :
    Linked loose { f with blocks := f.blocks.push {}, dominance := none } := by
  have hnext : f.blocks.get? f.blocks.next = none := Arena.get?_next _
  constructor
  all_goals simp only [Arena.get?_push]
  case entry_live => grind [h.entry_live]
  case listed_inst => grind [h.listed_inst]
  case listed_phi => grind [h.listed_phi]
  case insts_nodup => grind [h.insts_nodup]
  case phis_nodup => grind [h.phis_nodup]
  case inst_listed => grind [h.inst_listed]
  case phi_listed => grind [h.phi_listed]
  case target_live => grind [h.target_live]
  case terminator_last => grind [h.terminator_last]
  case inst_result => exact h.inst_result
  case phi_result => exact h.phi_result
  case inst_origin => exact h.inst_origin
  case phi_origin => exact h.phi_origin
  case argument_iff => exact h.argument_iff

theorem Linked.setEntry (h : f.Linked loose) {b : BlockId} {data : Block}
    (hb : f.blocks.get? b = some data) : Linked loose { f with entry := b, dominance := none } :=
  { h with entry_live := ⟨data, hb⟩ }

theorem targets_retarget (opcode : Opcode) (old new : BlockId) {t : BlockId}
    (ht : t ∈ (opcode.retarget old new).targets) : t = new ∨ t ∈ opcode.targets := by
  cases opcode <;> grind [Opcode.retarget, Opcode.targets]

theorem isTerminator_retarget (opcode : Opcode) (old new : BlockId) :
    (opcode.retarget old new).isTerminator = opcode.isTerminator := by
  cases opcode <;> rfl

theorem Linked.withTarget (h : f.Linked loose) (term : InstId) (old : BlockId) {new : BlockId}
    {data : Block} (hnew : f.blocks.get? new = some data) :
    (f.withTarget term old new).Linked loose := by
  constructor
  all_goals simp only [Func.withTarget, Arena.get?_modify_eq_some]
  case entry_live => exact h.entry_live
  case listed_inst => grind [h.listed_inst]
  case listed_phi => exact h.listed_phi
  case insts_nodup => exact h.insts_nodup
  case phis_nodup => exact h.phis_nodup
  case inst_listed => grind [h.inst_listed]
  case phi_listed => exact h.phi_listed
  case target_live =>
    rintro i _ t ⟨inst, hi, rfl⟩ hl ht
    split at ht
    · rcases targets_retarget inst.opcode old new ht with rfl | ht
      · exact ⟨data, hnew⟩
      · exact h.target_live i inst t hi hl ht
    · exact h.target_live i inst t hi hl ht
  case terminator_last => grind [h.terminator_last, isTerminator_retarget, Inst.isTerminator]
  case inst_result => grind [h.inst_result]
  case phi_result => exact h.phi_result
  case inst_origin => grind [h.inst_origin]
  case phi_origin => exact h.phi_origin
  case argument_iff => exact h.argument_iff

theorem Linked.mono {loose' : User → Prop} (h : f.Linked loose)
    (hl : ∀ u, loose u → loose' u) : f.Linked loose' :=
  { h with
    inst_listed := fun i inst hi hn => h.inst_listed i inst hi fun hu => hn (hl _ hu)
    phi_listed := fun p phi hp hn => h.phi_listed p phi hp fun hu => hn (hl _ hu)
    target_live := fun i inst t hi hn => h.target_live i inst t hi fun hu => hn (hl _ hu) }

theorem Linked.settle (h : f.Linked loose) (hi : ∀ i, loose (.inst i) → f.insts.get? i = none)
    (hp : ∀ p, loose (.phi p) → f.phis.get? p = none) : f.Linked fun _ => False where
  __ := h
  inst_listed i inst hget _ := h.inst_listed i inst hget fun hl => by
    rw [hi i hl] at hget
    cases hget
  phi_listed p phi hget _ := h.phi_listed p phi hget fun hl => by
    rw [hp p hl] at hget
    cases hget
  target_live i inst t hget _ := h.target_live i inst t hget fun hl => by
    rw [hi i hl] at hget
    cases hget

theorem getLast?_filter_ne {is : List InstId} {i j : InstId} (h : is.getLast? = some j)
    (hne : j ≠ i) : (is.filter (· ≠ i)).getLast? = some j := by
  obtain ⟨init, rfl⟩ := List.getLast?_eq_some_iff.1 h
  simp [hne]

theorem Linked.unlistInst (h : f.Linked loose) (b : BlockId) (i : InstId) :
    (f.unlistInst b i).Linked fun u => u = .inst i ∨ loose u := by
  constructor
  all_goals simp only [Func.unlistInst, Arena.get?_modify_eq_some]
  case entry_live => grind [h.entry_live]
  case listed_inst => grind [h.listed_inst]
  case listed_phi => grind [h.listed_phi]
  case insts_nodup =>
    rintro c _ ⟨d, hc, rfl⟩
    split
    · exact (h.insts_nodup c d hc).filter _
    · exact h.insts_nodup c d hc
  case phis_nodup => grind [h.phis_nodup]
  case inst_listed => grind [h.inst_listed]
  case phi_listed => grind [h.phi_listed]
  case target_live => grind [h.target_live]
  case terminator_last =>
    rintro c _ j inst ⟨d, hc, rfl⟩ hmem hj ht
    split
    · rename_i hcb
      obtain ⟨hmem, hne⟩ : j ∈ d.insts ∧ j ≠ i := by simpa [hcb] using hmem
      exact getLast?_filter_ne (h.terminator_last c d j inst hc hmem hj ht) hne
    · rename_i hcb
      exact h.terminator_last c d j inst hc (by simpa [hcb] using hmem) hj ht
  case inst_result => exact h.inst_result
  case phi_result => exact h.phi_result
  case inst_origin => exact h.inst_origin
  case phi_origin => exact h.phi_origin
  case argument_iff => exact h.argument_iff

theorem Linked.unlistPhi (h : f.Linked loose) (b : BlockId) (p : PhiId) :
    (f.unlistPhi b p).Linked fun u => u = .phi p ∨ loose u := by
  constructor
  all_goals simp only [Func.unlistPhi, Arena.get?_modify_eq_some]
  case entry_live => grind [h.entry_live]
  case listed_inst => grind [h.listed_inst]
  case listed_phi => grind [h.listed_phi]
  case insts_nodup => grind [h.insts_nodup]
  case phis_nodup =>
    rintro c _ ⟨d, hc, rfl⟩
    split
    · exact (h.phis_nodup c d hc).filter _
    · exact h.phis_nodup c d hc
  case inst_listed => grind [h.inst_listed]
  case phi_listed => grind [h.phi_listed]
  case target_live => grind [h.target_live]
  case terminator_last => grind [h.terminator_last]
  case inst_result => exact h.inst_result
  case phi_result => exact h.phi_result
  case inst_origin => exact h.inst_origin
  case phi_origin => exact h.phi_origin
  case argument_iff => exact h.argument_iff

theorem dropInst_values_eq_some {i : InstId} {data : Inst} {v : ValueId} {val : Value} :
    (f.dropInst i data).values.get? v = some val ↔ data.result ≠ some v ∧
      ∃ old, f.values.get? v = some old ∧
        (if v ∈ data.operands then old.dropUses (.inst i) else old) = val := by
  have hrel := get?_releaseUses { f with insts := f.insts.erase i } (.inst i) data.operands v
  unfold Func.dropInst
  cases hres : data.result with
  | none =>
    simp only [hrel, Option.map_eq_some_iff]
    simp
  | some r =>
    simp only [Arena.get?_erase, hrel]
    by_cases hv : v = r
    · simp [hv]
    · simp [hv, Ne.symm hv]

theorem dropPhi_values_eq_some {p : PhiId} {data : Phi} {v : ValueId} {val : Value} :
    (f.dropPhi p data).values.get? v = some val ↔ data.result ≠ v ∧
      ∃ old, f.values.get? v = some old ∧
        (if v ∈ data.sources.values then old.dropUses (.phi p) else old) = val := by
  have hrel := get?_releaseUses { f with phis := f.phis.erase p } (.phi p) data.sources.values v
  simp only [Func.dropPhi, Arena.get?_erase, hrel]
  by_cases hv : v = data.result
  · simp [hv]
  · simp [hv, Ne.symm hv]

section Fields

variable (f : Func) (i : InstId) (data : Inst) (p : PhiId) (phi : Phi)

@[simp]
theorem dropInst_blocks : (f.dropInst i data).blocks = f.blocks := by
  unfold Func.dropInst
  rw [releaseUses_eq]
  cases data.result <;> rfl

@[simp]
theorem dropInst_insts : (f.dropInst i data).insts = f.insts.erase i := by
  unfold Func.dropInst
  rw [releaseUses_eq]
  cases data.result <;> rfl

@[simp]
theorem dropInst_phis : (f.dropInst i data).phis = f.phis := by
  unfold Func.dropInst
  rw [releaseUses_eq]
  cases data.result <;> rfl

@[simp]
theorem dropInst_entry : (f.dropInst i data).entry = f.entry := by
  unfold Func.dropInst
  rw [releaseUses_eq]
  cases data.result <;> rfl

@[simp]
theorem dropInst_arguments : (f.dropInst i data).arguments = f.arguments := by
  unfold Func.dropInst
  rw [releaseUses_eq]
  cases data.result <;> rfl

@[simp]
theorem dropPhi_blocks : (f.dropPhi p phi).blocks = f.blocks := by
  rw [Func.dropPhi, releaseUses_eq]

@[simp]
theorem dropPhi_insts : (f.dropPhi p phi).insts = f.insts := by
  rw [Func.dropPhi, releaseUses_eq]

@[simp]
theorem dropPhi_phis : (f.dropPhi p phi).phis = f.phis.erase p := by
  rw [Func.dropPhi, releaseUses_eq]

@[simp]
theorem dropPhi_entry : (f.dropPhi p phi).entry = f.entry := by
  rw [Func.dropPhi, releaseUses_eq]

@[simp]
theorem dropPhi_arguments : (f.dropPhi p phi).arguments = f.arguments := by
  rw [Func.dropPhi, releaseUses_eq]

end Fields

theorem Linked.dropInst (h : f.Linked loose) {i : InstId} {data : Inst}
    (hi : f.insts.get? i = some data)
    (hun : ∀ b d, f.blocks.get? b = some d → i ∉ d.insts) : (f.dropInst i data).Linked loose := by
  constructor
  all_goals simp only [dropInst_blocks, dropInst_insts, dropInst_phis, dropInst_entry,
    dropInst_arguments, dropInst_values_eq_some, Arena.get?_erase]
  case entry_live => exact h.entry_live
  case listed_inst => grind [h.listed_inst]
  case listed_phi => exact h.listed_phi
  case insts_nodup => exact h.insts_nodup
  case phis_nodup => exact h.phis_nodup
  case inst_listed => grind [h.inst_listed]
  case phi_listed => exact h.phi_listed
  case target_live => grind [h.target_live]
  case terminator_last => grind [h.terminator_last]
  case inst_result => grind [h.inst_result, Value.definition_dropUses]
  case phi_result => grind [h.phi_result, h.inst_result, Value.definition_dropUses]
  case inst_origin => grind [h.inst_origin, Value.definition_dropUses]
  case phi_origin => grind [h.phi_origin, Value.definition_dropUses]
  case argument_iff => grind [h.argument_iff, h.inst_result, Value.definition_dropUses]

theorem Linked.dropPhi (h : f.Linked loose) {p : PhiId} {data : Phi}
    (hp : f.phis.get? p = some data)
    (hun : ∀ b d, f.blocks.get? b = some d → p ∉ d.phis) : (f.dropPhi p data).Linked loose := by
  constructor
  all_goals simp only [dropPhi_blocks, dropPhi_insts, dropPhi_phis, dropPhi_entry,
    dropPhi_arguments, dropPhi_values_eq_some, Arena.get?_erase]
  case entry_live => exact h.entry_live
  case listed_inst => exact h.listed_inst
  case listed_phi => grind [h.listed_phi]
  case insts_nodup => exact h.insts_nodup
  case phis_nodup => exact h.phis_nodup
  case inst_listed => exact h.inst_listed
  case phi_listed => grind [h.phi_listed]
  case target_live => exact h.target_live
  case terminator_last => exact h.terminator_last
  case inst_result => grind [h.inst_result, h.phi_result, Value.definition_dropUses]
  case phi_result => grind [h.phi_result, Value.definition_dropUses]
  case inst_origin => grind [h.inst_origin, Value.definition_dropUses]
  case phi_origin => grind [h.phi_origin, Value.definition_dropUses]
  case argument_iff => grind [h.argument_iff, h.phi_result, Value.definition_dropUses]

theorem Linked.eraseBlock (h : f.Linked loose) {b : BlockId} (hne : b ≠ f.entry)
    (hi : ∀ i inst, f.insts.get? i = some inst → inst.block = b ∨ b ∈ inst.opcode.targets →
      loose (.inst i))
    (hp : ∀ p phi, f.phis.get? p = some phi → phi.block = b → loose (.phi p)) :
    Linked loose { f with blocks := f.blocks.erase b } := by
  constructor
  all_goals simp only [Arena.get?_erase]
  case entry_live => grind [h.entry_live]
  case listed_inst => grind [h.listed_inst]
  case listed_phi => grind [h.listed_phi]
  case insts_nodup => grind [h.insts_nodup]
  case phis_nodup => grind [h.phis_nodup]
  case inst_listed => grind [h.inst_listed]
  case phi_listed => grind [h.phi_listed]
  case target_live => grind [h.target_live]
  case terminator_last => grind [h.terminator_last]
  case inst_result => exact h.inst_result
  case phi_result => exact h.phi_result
  case inst_origin => exact h.inst_origin
  case phi_origin => exact h.phi_origin
  case argument_iff => exact h.argument_iff

end Func

end Midend
