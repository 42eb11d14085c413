import Mathlib.Data.List.Nodup
import Midend.Proofs.Edit.Ledger
import Midend.Proofs.Program

namespace Midend

namespace ConstantPool

variable {p q : ConstantPool} {l : Literal} {k : ConstId}

theorem mem_literals_iff : l ∈ p.literals ↔ ∃ k, p.find? l = some k := by
  rw [← Option.isSome_iff_exists, find?, Option.isSome_map, List.isSome_idxOf?]

theorem notMem_literals (hl : p.find? l = none) : l ∉ p.literals := by
  rw [mem_literals_iff, hl]
  rintro ⟨k, hk⟩
  cases hk

theorem find?_eq_some_iff (hp : p.literals.Nodup) (hfew : p.size < 2 ^ 32) :
    p.find? l = some k ↔ p.get? k = some l := by
  have hid : ∀ n, n < p.literals.length → idAt n = ⟨n⟩ := fun n hn =>
    Handle.ext (Nat.min_eq_left (Nat.le_of_lt_succ (Nat.lt_trans hn hfew)))
  rw [find?, Option.map_eq_some_iff, get?, List.getElem?_eq_some_iff]
  constructor
  · rintro ⟨n, hn, rfl⟩
    obtain ⟨hlt, hget, -⟩ := List.idxOf?_eq_some_iff.1 hn
    rw [hid n hlt]
    exact ⟨hlt, hget⟩
  · rintro ⟨hlt, rfl⟩
    refine ⟨k.index, List.idxOf?_eq_some_iff.2 ⟨hlt, rfl, fun j hj heq => ?_⟩, hid _ hlt⟩
    exact Nat.ne_of_lt hj ((hp.getElem_inj_iff).1 heq)

theorem find?_intern (p : ConstantPool) (l : Literal) :
    (p.intern l).2.find? l = some (p.intern l).1 := by
  unfold intern
  cases hl : p.find? l with
  | some k => exact hl
  | none =>
    have hnew : l ∉ p.literals := notMem_literals hl
    have hat : (p.literals ++ [l]).idxOf? l = some p.literals.length := by
      refine List.idxOf?_eq_some_iff.2 ⟨by simp, by simp, fun j hj heq => hnew ?_⟩
      rw [List.getElem_append_left hj] at heq
      exact heq ▸ List.getElem_mem hj
    change ((p.literals ++ [l]).idxOf? l).map idAt = _
    rw [hat]
    rfl

theorem literals_intern (p : ConstantPool) (l : Literal) :
    (p.intern l).2.literals = if l ∈ p.literals then p.literals else p.literals ++ [l] := by
  unfold intern
  cases hl : p.find? l with
  | some k => rw [if_pos (mem_literals_iff.2 ⟨k, hl⟩)]
  | none => rw [if_neg (notMem_literals hl)]

theorem get?_mono (h : p.literals <+: q.literals) (hk : p.get? k = some l) :
    q.get? k = some l := by
  obtain ⟨rest, hrest⟩ := h
  obtain ⟨hlt, -⟩ := List.getElem?_eq_some_iff.1 hk
  rw [get?, ← hrest, List.getElem?_append_left hlt]
  exact hk

theorem find?_mono (hq : q.literals.Nodup) (hfew : q.size < 2 ^ 32)
    (h : p.literals <+: q.literals) (hk : p.find? l = some k) : q.find? l = some k := by
  have hsize : p.size < 2 ^ 32 := Nat.lt_of_le_of_lt h.length_le hfew
  have hget := (find?_eq_some_iff (hq.sublist h.sublist) hsize).1 hk
  exact (find?_eq_some_iff hq hfew).2 (get?_mono h hget)

end ConstantPool

namespace Program

/-- What callers can do with a program: add a function, ask for a constant of a function or of the
pool, and anything that can be done with a function. -/
inductive Request where
  | addFunc (name : String) (actions : List Action)
  | constant (id : FuncId) (l : Literal)
  | intern (l : Literal)
  | act (id : FuncId) (a : Action)
deriving DecidableEq, Repr

namespace Request

def run (p : Program) : Request → Program
  | addFunc name actions => (p.addFunc (Action.build name actions)).2
  | constant id l => (p.constant id l).2
  | intern l => { p with constants := (p.constants.intern l).2 }
  | act id a => (p.edit id a.edit).2

/-- The literal that is asked for; a function that does not exist asks for none. -/
def literal? (p : Program) : Request → Option Literal
  | constant id l => if id.index < p.size then some l else none
  | intern l => some l
  | addFunc _ _ | act _ _ => none

end Request

def after (history : List Request) : Program := history.foldl Request.run {}

/-- The literals that are asked for, in order and with repetitions. -/
def asked : Program → List Request → List Literal
  | _, [] => []
  | p, r :: rs => (r.literal? p).toList ++ asked (r.run p) rs

/-- In a function, `v` is live and stands for the constant `k`. -/
def StandsFor (p : Program) (id : FuncId) (v : ValueId) (k : ConstId) : Prop :=
  ∃ f val, p.func id = .ok f ∧ f.values.get? v = some val ∧ val.definition = .const k

def IsLive (p : Program) (id : FuncId) (v : ValueId) : Prop :=
  ∃ f, p.func id = .ok f ∧ f.values.contains v = true

/-- What requests do to a program: literals are added at the end, and functions evolve. -/
structure Grows (p q : Program) : Prop where
  literals : p.constants.literals <+: q.constants.literals
  func : ∀ id f, p.func id = .ok f → ∃ g, q.func id = .ok g ∧ f.Evolves g
  origin : ∀ id g, q.func id = .ok g →
    ∃ f, f.Evolves g ∧ (p.func id = .ok f ∨ ∃ name, f = Func.new name)

variable {p q : Program} {id : FuncId} {f g : Func} {l : Literal} {k : ConstId} {v w : ValueId}

theorem Grows.trans {r : Program} (hpq : p.Grows q) (hqr : q.Grows r) : p.Grows r := by
  refine ⟨hpq.literals.trans hqr.literals, fun id f hf => ?_, fun id h hh => ?_⟩
  · obtain ⟨g, hg, hfg⟩ := hpq.func id f hf
    obtain ⟨h, hh, hgh⟩ := hqr.func id g hg
    exact ⟨h, hh, Relation.ReflTransGen.trans hfg hgh⟩
  · obtain ⟨g, hgh, hg | hnew⟩ := hqr.origin id h hh
    · obtain ⟨f, hfg, hf⟩ := hpq.origin id g hg
      exact ⟨f, Relation.ReflTransGen.trans hfg hgh, hf⟩
    · exact ⟨g, hgh, .inr hnew⟩

theorem Grows.of_functions (hfunctions : q.functions = p.functions)
    (hliterals : p.constants.literals <+: q.constants.literals) : p.Grows q := by
  have hfunc : ∀ id, q.func id = p.func id := fun id => by
    rw [Program.func, Program.func, hfunctions]
  exact ⟨hliterals, fun id f hf => ⟨f, (hfunc id).trans hf, .refl f⟩,
    fun id f hf => ⟨f, .refl f, .inl ((hfunc id).symm.trans hf)⟩⟩

theorem edit_grows {α : Type} {e : Edit α} (he : ∀ f : Func, e.Keeps f.Evolves) :
    p.Grows (p.edit id e).2 := by
  cases hf : p.func id with
  | error err =>
    rw [edit, hf]
    exact .of_functions rfl (List.prefix_refl _)
  | ok f =>
    rw [edit_of_func hf]
    have hev : f.Evolves (e.apply f).2 := he f f (.refl f)
    refine ⟨List.prefix_refl _, fun j g hg => ?_, fun j g hg => ?_⟩
    · rw [func_setFunc hf]
      split
      · rename_i heq
        obtain rfl := Except.ok.inj (hf.symm.trans (heq ▸ hg))
        exact ⟨_, rfl, hev⟩
      · exact ⟨g, hg, .refl g⟩
    · rw [func_setFunc hf] at hg
      split at hg
      · rename_i heq
        obtain rfl := Except.ok.inj hg
        exact ⟨f, hev, .inl (heq ▸ hf)⟩
      · exact ⟨g, .refl g, .inl hg⟩

theorem addFunc_grows (name : String) (actions : List Action) :
    p.Grows (p.addFunc (Action.build name actions)).2 := by
  refine ⟨List.prefix_refl _, fun j g hg => ⟨g, ?_, .refl g⟩, fun j g hg => ?_⟩
  · obtain ⟨hlt, -⟩ := List.getElem?_eq_some_iff.1 (func_eq_ok.1 hg)
    rw [func_eq_ok, addFunc, List.getElem?_append_left hlt]
    exact func_eq_ok.1 hg
  · rw [func_eq_ok, addFunc] at hg
    rcases List.getElem?_eq_some_iff.1 hg with ⟨hlt, hget⟩
    by_cases hold : j.index < p.functions.length
    · rw [List.getElem?_append_left hold] at hg
      exact ⟨g, .refl g, .inl (func_eq_ok.2 hg)⟩
    · rw [List.getElem_append_right (Nat.le_of_not_lt hold)] at hget
      obtain rfl : Action.build name actions = g := by simpa using hget
      exact ⟨_, Action.build_evolves name actions, .inr ⟨name, rfl⟩⟩

theorem intern_grows (l : Literal) : p.Grows { p with constants := (p.constants.intern l).2 } := by
  refine .of_functions rfl ?_
  rw [ConstantPool.literals_intern]
  split
  · exact List.prefix_refl _
  · exact List.prefix_append _ _

theorem constant_of_func (hf : p.func id = .ok f) (l : Literal) :
    p.constant id l = { p with constants := (p.constants.intern l).2 }.edit id
      (Edit.constant (p.constants.intern l).1) := by
  rw [constant, hf]

theorem constant_grows (id : FuncId) (l : Literal) : p.Grows (p.constant id l).2 := by
  cases hf : p.func id with
  | error err =>
    rw [constant, hf]
    exact .of_functions rfl (List.prefix_refl _)
  | ok f =>
    rw [constant_of_func hf]
    exact (intern_grows l).trans (edit_grows fun _ => Edit.constant_evolves _)

theorem Request.run_grows (p : Program) (r : Request) : p.Grows (r.run p) := by
  cases r with
  | addFunc name actions => exact addFunc_grows name actions
  | constant id l => exact constant_grows id l
  | intern l => exact intern_grows l
  | act id a => exact edit_grows fun f g hg => a.run_evolves hg

theorem after_concat (history : List Request) (r : Request) :
    after (history ++ [r]) = r.run (after history) := by
  rw [after, List.foldl_append]
  rfl

theorem after_grows (past future : List Request) : (after past).Grows (after (past ++ future)) := by
  induction future using List.reverseRecOn with
  | nil => exact .of_functions (by rw [List.append_nil]) (by rw [List.append_nil])
  | append_singleton future r ih =>
    rw [← List.append_assoc, after_concat]
    exact ih.trans (r.run_grows _)

theorem asked_concat (p : Program) (history : List Request) (r : Request) :
    asked p (history ++ [r]) =
      asked p history ++ (r.literal? (history.foldl Request.run p)).toList := by
  induction history generalizing p with
  | nil => simp [asked]
  | cons s history ih => simp [asked, ih]

/-- A request that asks for a literal interns it, and no other does anything to the pool. -/
theorem Request.constants_run (p : Program) (r : Request) : (r.run p).constants =
    (r.literal? p).elim p.constants fun l => (p.constants.intern l).2 := by
  cases r with
  | addFunc name actions => rfl
  | constant id l =>
    rw [run, literal?]
    split
    · rename_i hlt
      obtain ⟨f, hf⟩ := lt_size_iff.1 hlt
      rw [constant_of_func hf, constants_edit]
      rfl
    · rename_i hge
      cases hf : p.func id with
      | ok f => exact absurd (lt_size_iff.2 ⟨f, hf⟩) hge
      | error err =>
        rw [Program.constant, hf]
        rfl
  | intern l => rfl
  | act id a => exact constants_edit p id a.edit

theorem eraseDups_concat (ls : List Literal) (l : Literal) :
    (ls ++ [l]).eraseDups = if l ∈ ls then ls.eraseDups else ls.eraseDups ++ [l] := by
  rw [List.eraseDups_append]
  by_cases hl : l ∈ ls <;> simp [List.removeAll, hl, List.eraseDups_cons]

/-- The pool has the literals that were asked for, each once, and all ledgers agree. -/
structure Interned (p : Program) (ls : List Literal) : Prop where
  literals : p.constants.literals = ls.eraseDups
  nodup : p.constants.literals.Nodup
  agrees : ∀ id f, p.func id = .ok f → f.ledger.Agrees

theorem Interned.run {ls : List Literal} (h : p.Interned ls) (r : Request) :
    (r.run p).Interned (ls ++ (r.literal? p).toList) := by
  have hagrees : ∀ id g, (r.run p).func id = .ok g → g.ledger.Agrees := by
    intro id g hg
    obtain ⟨f, hfg, hf | ⟨name, rfl⟩⟩ := (r.run_grows p).origin id g hg
    · exact (h.agrees id f hf).run hfg
    · exact (Func.new_agrees name).run hfg
  have hconstants := r.constants_run p
  cases hl : r.literal? p with
  | none =>
    rw [hl, Option.elim_none] at hconstants
    refine ⟨?_, hconstants ▸ h.nodup, hagrees⟩
    rw [hconstants, h.literals, Option.toList_none, List.append_nil]
  | some l =>
    rw [hl, Option.elim_some] at hconstants
    refine ⟨?_, ?_, hagrees⟩
    · rw [hconstants, ConstantPool.literals_intern, Option.toList_some, eraseDups_concat,
        h.literals]
      simp only [List.mem_eraseDups]
    · rw [hconstants, ConstantPool.literals_intern]
      split
      · exact h.nodup
      · rename_i hnew
        exact List.nodup_append_comm.1 (List.nodup_cons.2 ⟨hnew, h.nodup⟩)

theorem after_interned (history : List Request) : (after history).Interned (asked {} history) := by
  induction history using List.reverseRecOn with
  | nil => exact ⟨rfl, List.nodup_nil, fun id f hf => by simp [after, func] at hf⟩
  | append_singleton history r ih =>
    rw [after_concat, asked_concat]
    exact ih.run r

theorem standsFor_iff (hf : p.func id = .ok f) :
    p.StandsFor id v k ↔ f.ledger.definitions.get? v = some (.const k) := by
  rw [Func.get?_ledger, Option.map_eq_some_iff]
  constructor
  · rintro ⟨g, val, hg, hval⟩
    obtain rfl := Except.ok.inj (hf.symm.trans hg)
    exact ⟨val, hval⟩
  · rintro ⟨val, hval⟩
    exact ⟨f, val, hf, hval⟩

theorem StandsFor.func (h : p.StandsFor id v k) :
    ∃ f, p.func id = .ok f ∧ f.ledger.definitions.get? v = some (.const k) := by
  obtain ⟨f, val, hf, hval⟩ := h
  exact ⟨f, hf, (standsFor_iff hf).1 ⟨f, val, hf, hval⟩⟩

theorem StandsFor.const_unique {j : ConstId} (hk : p.StandsFor id v k) (hj : p.StandsFor id v j) :
    k = j := by
  obtain ⟨f, hf, hv⟩ := hk.func
  exact Definition.const.inj (Option.some.inj (hv.symm.trans ((standsFor_iff hf).1 hj)))

theorem Interned.value_unique {ls : List Literal} (h : p.Interned ls) (hv : p.StandsFor id v k)
    (hw : p.StandsFor id w k) : v = w := by
  obtain ⟨f, hf, hdef⟩ := hv.func
  have hagrees := h.agrees id f hf
  exact Option.some.inj (((hagrees k v).2 hdef).symm.trans
    ((hagrees k w).2 ((standsFor_iff hf).1 hw)))

theorem Grows.standsFor (h : p.Grows q) (hv : p.StandsFor id v k) (hlive : q.IsLive id v) :
    q.StandsFor id v k := by
  obtain ⟨f, hf, hdef⟩ := hv.func
  obtain ⟨g, hg, hfg⟩ := h.func id f hf
  obtain ⟨g', hg', hcontains⟩ := hlive
  obtain rfl := Except.ok.inj (hg.symm.trans hg')
  have hlt : v.index < f.ledger.definitions.size := by
    by_contra hge
    rw [Arena.get?_eq_none_of_size_le (Nat.le_of_not_lt hge)] at hdef
    cases hdef
  refine (standsFor_iff hg).2 ?_
  rcases (Ledger.Before.of_run hfg).get? v hlt with heq | hnone
  · rw [heq, hdef]
  · rw [← Func.contains_ledger, Arena.contains, hnone] at hcontains
    cases hcontains

theorem Grows.not_isLive (h : p.Grows q) (hg : q.func id = .ok g) :
    ¬ p.IsLive id g.values.next := by
  rintro ⟨f, hf, hcontains⟩
  obtain ⟨g', hg', hfg⟩ := h.func id f hf
  obtain rfl := Except.ok.inj (hg.symm.trans hg')
  have hsize : f.values.size ≤ g.values.size := by
    simpa [Func.ledger] using (Ledger.Before.of_run hfg).size
  have hnone : f.values.get? g.values.next = none := Arena.get?_eq_none_of_size_le hsize
  rw [Arena.contains, hnone] at hcontains
  cases hcontains

/-- What a request for a constant gives: the value that stands for it, or else the next one. -/
theorem Interned.constant_spec {ls : List Literal} (h : p.Interned ls) (hf : p.func id = .ok f)
    (l : Literal) :
    ∃ v, (p.constant id l).1 = .ok v ∧
      (p.constant id l).2.StandsFor id v (p.constants.intern l).1 ∧
      (p.StandsFor id v (p.constants.intern l).1 ∨
        (∀ w, ¬ p.StandsFor id w (p.constants.intern l).1) ∧ v = f.values.next) := by
  have hagrees := h.agrees id f hf
  have hf' : Program.func { p with constants := (p.constants.intern l).2 } id = .ok f := hf
  have hafter : ∀ g : Func, ((Program.setFunc { p with constants := (p.constants.intern l).2 } id
      g).func id) = .ok g := fun g => by rw [func_setFunc hf', if_pos rfl]
  rw [constant_of_func hf, edit_of_func hf']
  generalize (p.constants.intern l).1 = k at *
  obtain ⟨v, hk, hrun⟩ | ⟨habsent, g, hrun, hledger⟩ := Edit.constant_apply f k
  · have hdef := (hagrees k v).1 (Option.filter_eq_some_iff.1 hk).1
    rw [hrun]
    exact ⟨v, rfl, (standsFor_iff (hafter f)).2 hdef, .inl ((standsFor_iff hf).2 hdef)⟩
  · have hnone : f.ledger.constants.get? k = none :=
      hagrees.absent (Func.contains_ledger f ▸ habsent)
    rw [hrun]
    refine ⟨_, rfl, (standsFor_iff (hafter g)).2 ?_, .inr ⟨fun w hw => ?_, rfl⟩⟩
    · have hnext : f.values.next = f.ledger.definitions.next := (Arena.next_map _ _).symm
      rw [hledger, Ledger.enter, Arena.get?_push, if_pos hnext]
    · rw [(hagrees k w).2 ((standsFor_iff hf).1 hw)] at hnone
      cases hnone

/-- The request for `l` after `past` gave `v`, which stands for `k`. -/
def Served (past : List Request) (id : FuncId) (l : Literal) (v : ValueId) (k : ConstId) : Prop :=
  ((after past).constant id l).1 = .ok v ∧
    (after (past ++ [.constant id l])).StandsFor id v k

theorem exists_served {past : List Request} (hlt : id.index < (after past).size) (l : Literal) :
    ∃ v k, Served past id l v k := by
  obtain ⟨f, hf⟩ := lt_size_iff.1 hlt
  obtain ⟨v, hv, hstands, -⟩ := (after_interned past).constant_spec hf l
  exact ⟨v, _, hv, by rwa [after_concat]⟩

namespace Served

variable {past between : List Request}

theorem spec (h : Served past id l v k) :
    (after (past ++ [.constant id l])).constants.find? l = some k ∧
      ((after past).StandsFor id v k ∨
        (∀ w, ¬ (after past).StandsFor id w k) ∧
          ∃ f, (after past).func id = .ok f ∧ v = f.values.next) := by
  obtain ⟨hv, hk⟩ := h
  cases hf : (after past).func id with
  | error err =>
    rw [constant, hf] at hv
    cases hv
  | ok f =>
    obtain ⟨w, hw, hstands, hcases⟩ := (after_interned past).constant_spec hf l
    obtain rfl := Except.ok.inj (hw.symm.trans hv)
    rw [after_concat] at hk ⊢
    obtain rfl := hk.const_unique hstands
    refine ⟨?_, hcases.imp_right fun ⟨hnone, hnext⟩ => ⟨hnone, f, rfl, hnext⟩⟩
    rw [Request.run, constant_of_func hf, constants_edit]
    exact ConstantPool.find?_intern _ l

theorem fresh (h : Served past id l v k) (hnone : ∀ w, ¬ (after past).StandsFor id w k)
    {moment : List Request} (hmoment : moment <+: past) : ¬ (after moment).IsLive id v := by
  obtain ⟨rest, rfl⟩ := hmoment
  rcases h.spec.2 with hold | ⟨-, f, hf, rfl⟩
  · exact absurd hold (hnone v)
  · exact (after_grows moment rest).not_isLive hf

theorem again (h : Served past id l v k) (h' : Served (past ++ .constant id l :: between) id l w k)
    (hlive : (after (past ++ .constant id l :: between)).IsLive id v) : w = v := by
  have hgrows : (after (past ++ [.constant id l])).Grows
      (after (past ++ .constant id l :: between)) := by
    rw [List.append_cons _ _ between]
    exact after_grows _ between
  have hold := hgrows.standsFor h.2 hlive
  rcases h'.spec.2 with hsame | ⟨hnone, -⟩
  · exact (after_interned _).value_unique hsame hold
  · exact absurd hold (hnone v)

end Served

theorem Interned.destroyed {ls : List Literal} (h : p.Interned ls) (hv : p.StandsFor id v k)
    (w : ValueId) : ¬ ((Request.act id (.forceDestroy v)).run p).StandsFor id w k := by
  intro hw
  obtain ⟨f, hf, hdef⟩ := hv.func
  obtain ⟨g, hg, hleft⟩ := hw.func
  rw [Request.run, edit_of_func hf, func_setFunc hf, if_pos rfl] at hg
  obtain rfl := Except.ok.inj hg
  rw [Func.get?_ledger] at hdef
  obtain ⟨val, hval, -⟩ := Option.map_eq_some_iff.1 hdef
  rw [Action.edit, Edit.forceDestroy_ledger hval, Ledger.definitions_strike,
    Arena.get?_erase] at hleft
  split at hleft
  · cases hleft
  · rename_i hne
    exact hne (h.value_unique ((standsFor_iff hf).2 hleft) hv)

structure CoherentInterning (history : List Request) : Prop where
  /-- The handles are the positions of the literals in the order of the first requests. -/
  literals : (after history).constants.literals = (asked {} history).eraseDups
  inverse : ∀ l k, (after history).constants.find? l = some k ↔
    (after history).constants.get? k = some l
  known : ∀ l, (∃ k, (after history).constants.find? l = some k) ↔ l ∈ asked {} history
  /-- A handle names its literal for ever. -/
  stable : ∀ past future l k, history = past ++ future →
    (after past).constants.find? l = some k → (after history).constants.get? k = some l
  value_unique : ∀ id v w k, (after history).StandsFor id v k → (after history).StandsFor id w k →
    v = w
  /-- A request to a function gives a live value of it that is defined by the constant. -/
  served : ∀ past future id l, history = past ++ .constant id l :: future →
    id.index < (after past).size →
    ∃ v k, Served past id l v k ∧ (after (past ++ [.constant id l])).constants.find? l = some k
  /-- Equal literals get one handle, in whatever functions and at whatever times. -/
  injective : ∀ past future past' future' id id' l l' v v' k k',
    history = past ++ .constant id l :: future → history = past' ++ .constant id' l' :: future' →
    Served past id l v k → Served past' id' l' v' k' → (k = k' ↔ l = l')
  /-- A value is given again as long as it is live. -/
  again : ∀ past between future id l v k,
    history = past ++ .constant id l :: between ++ .constant id l :: future →
    Served past id l v k → (after (past ++ .constant id l :: between)).IsLive id v →
    Served (past ++ .constant id l :: between) id l v k
  /-- Without a live one, the value is one that was not live before. -/
  fresh : ∀ past future id l v k, history = past ++ .constant id l :: future →
    Served past id l v k → (∀ w, ¬ (after past).StandsFor id w k) →
    ∀ moment, moment <+: past → ¬ (after moment).IsLive id v
  destroyed : ∀ past future id v k, history = past ++ .act id (.forceDestroy v) :: future →
    (after past).StandsFor id v k →
    ∀ w, ¬ (after (past ++ [.act id (.forceDestroy v)])).StandsFor id w k

/-- With fewer literals than there are handles, interning is coherent in every state that callers
can come to. -/
theorem interning_coherent (history : List Request)
    (hfew : (asked {} history).eraseDups.length < 2 ^ 32) : CoherentInterning history := by
  have hp : (after history).Interned (asked {} history) := after_interned history
  have hsize : (after history).constants.size < 2 ^ 32 := by
    rw [ConstantPool.size, hp.literals]
    exact hfew
  have hinverse : ∀ l k, (after history).constants.find? l = some k ↔
      (after history).constants.get? k = some l := fun l k =>
    ConstantPool.find?_eq_some_iff hp.nodup hsize
  have hstable : ∀ past future l k, history = past ++ future →
      (after past).constants.find? l = some k → (after history).constants.find? l = some k := by
    rintro past future l k rfl hk
    exact ConstantPool.find?_mono hp.nodup hsize (after_grows past future).literals hk
  have hserved : ∀ past future id l v k, history = past ++ .constant id l :: future →
      Served past id l v k → (after history).constants.find? l = some k := by
    intro past future id l v k hhistory hs
    exact hstable (past ++ [.constant id l]) future l k (by rw [hhistory, List.append_cons])
      hs.spec.1
  refine
    { literals := hp.literals
      inverse := hinverse
      known := fun l => ?_
      stable := fun past future l k hhistory hk =>
        (hinverse l k).1 (hstable past future l k hhistory hk)
      value_unique := fun id v w k => hp.value_unique
      served := fun past future id l hhistory hlt => ?_
      injective := fun past future past' future' id id' l l' v v' k k' hhistory hhistory' hs hs' =>
        ?_
      again := fun past between future id l v k hhistory hs hlive => ?_
      fresh := fun past future id l v k _ hs hnone moment hmoment => hs.fresh hnone hmoment
      destroyed := fun past future id v k _ hv w => ?_ }
  · rw [← ConstantPool.mem_literals_iff, hp.literals, List.mem_eraseDups]
  · obtain ⟨v, k, hs⟩ := exists_served hlt l
    exact ⟨v, k, hs, hs.spec.1⟩
  · -- All moments are compared in the pool at the end, where finding and getting are inverse.
    have hk := hserved past future id l v k hhistory hs
    have hk' := hserved past' future' id' l' v' k' hhistory' hs'
    constructor
    · rintro rfl
      exact Option.some.inj (((hinverse l k).1 hk).symm.trans ((hinverse l' k).1 hk'))
    · rintro rfl
      exact Option.some.inj (hk.symm.trans hk')
  · have ⟨f, hf, _⟩ := hlive
    obtain ⟨w, j, hs'⟩ := exists_served (lt_size_iff.2 ⟨f, hf⟩) l
    have hk := hserved past (between ++ .constant id l :: future) id l v k
      (by rw [hhistory, List.append_assoc, List.cons_append]) hs
    obtain rfl := Option.some.inj (hk.symm.trans (hserved _ future id l w j hhistory hs'))
    exact hs.again hs' hlive ▸ hs'
  · rw [after_concat]
    exact (after_interned past).destroyed hv w

/-- Both zeros in two functions, and one of them again after its value was destroyed. -/
def bothZeros : List Request :=
  [.addFunc "f" [], .addFunc "g" [.call .addArgument], .constant ⟨0⟩ (.float 0),
    .constant ⟨1⟩ (.float 0x8000000000000000), .constant ⟨1⟩ (.float 0),
    .act ⟨0⟩ (.forceDestroy ⟨0⟩), .constant ⟨0⟩ (.float 0)]

/-- The zeros are different constants, and the function gets a second value for the first. -/
theorem bothZeros_coherent :
    (asked {} bothZeros).eraseDups.length < 2 ^ 32 ∧ CoherentInterning bothZeros ∧
      (after bothZeros).constants.literals = [.float 0, .float 0x8000000000000000] ∧
      Served (bothZeros.take 2) ⟨0⟩ (.float 0) ⟨0⟩ ⟨0⟩ ∧
      Served (bothZeros.take 4) ⟨1⟩ (.float 0) ⟨2⟩ ⟨0⟩ ∧
      Served (bothZeros.take 6) ⟨0⟩ (.float 0) ⟨1⟩ ⟨0⟩ := by
  have hfew : (asked {} bothZeros).eraseDups.length < 2 ^ 32 := by decide +kernel
  exact ⟨hfew, interning_coherent bothZeros hfew, by decide +kernel,
    ⟨by decide +kernel, _, _, rfl, rfl, rfl⟩, ⟨by decide +kernel, _, _, rfl, rfl, rfl⟩,
    ⟨by decide +kernel, _, _, rfl, rfl, rfl⟩⟩

end Program

end Midend
