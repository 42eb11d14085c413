import Midend.Proofs.Edit.Formed
import Midend.Proofs.Func.Accepted
import Midend.Proofs.Promotion.Cells
import Midend.Proofs.Symbolic

namespace Midend

/-- What an execution starts from: constants, upvalues and arguments. -/
def Func.start (f : Func) : Execution ValueId Term Memory :=
  Execution.writeAll id (f.arguments.map fun v => (v, .atom v))
    ⟨f.initial .undefined .atom, .empty, []⟩

abbrev Joins := BlockId → Option ValueId

namespace Cell

/-- Symbolic execution in which closures take a copy of the cell. -/
abbrev machine (cell : Cell) : Machine Term Memory := symbolic (some cell.value)

def content (cell : Cell) (x : Execution ValueId Term Memory) : Term :=
  x.state.fetch (x.env cell.value)

/-- Writes the content of the cell to the join value of a block. -/
def note (cell : Cell) (joins : Joins) (b : BlockId) (x : Execution ValueId Term Memory) :
    Execution ValueId Term Memory :=
  match joins b with
  | none => x
  | some v => x.write v (cell.content x)

@[simp]
theorem state_note (cell : Cell) (joins : Joins) (b : BlockId)
    (x : Execution ValueId Term Memory) : (cell.note joins b x).state = x.state := by
  unfold note
  split <;> rfl

@[simp]
theorem reads_note (cell : Cell) (joins : Joins) (b : BlockId)
    (x : Execution ValueId Term Memory) : (cell.note joins b x).reads = x.reads := by
  unfold note
  split <;> rfl

theorem env_note (cell : Cell) (joins : Joins) (b : BlockId) (x : Execution ValueId Term Memory)
    (v : ValueId) :
    (cell.note joins b x).env v = if joins b = some v then cell.content x else x.env v := by
  unfold note
  cases joins b with
  | none => rfl
  | some w =>
    by_cases hv : v = w
    · simp [Execution.write, hv]
    · simp [Execution.write, hv, Ne.symm hv]

/-- An execution comes to a site in this state. -/
inductive Reached (f : Func) (cell : Cell) (joins : Joins) :
    Site → Execution ValueId Term Memory → Prop where
  | start : Reached f cell joins ⟨f.entry, 0⟩ f.start
  | inst {b : BlockId} {k : Nat} {x : Execution ValueId Term Memory} {e : InstId × Inst} :
      Reached f cell joins ⟨b, k⟩ x → (f.instsOf b)[k]? = some e →
      Reached f cell joins ⟨b, k + 1⟩ (x.runInst cell.machine id e)
  | edge {b c : BlockId} {x : Execution ValueId Term Memory} :
      Reached f cell joins (.exit f b) x → c ∈ f.successors b →
      Reached f cell joins ⟨c, 0⟩ (cell.note joins c (x.runPhis id b (f.phisOf c)))

inductive Written (f : Func) (joins : Joins) : ValueId → Site → Prop where
  | inst {b : BlockId} {k : Nat} {e : InstId × Inst} {v : ValueId} :
      (f.instsOf b)[k]? = some e → e.2.result = some v → Written f joins v ⟨b, k + 1⟩
  | phi {b : BlockId} {e : PhiId × Phi} {v : ValueId} :
      e ∈ f.phisOf b → e.2.result = v → Written f joins v ⟨b, 0⟩
  | join {b : BlockId} {v : ValueId} : joins b = some v → Written f joins v ⟨b, 0⟩

/-- A value that is never written, or written on every way to a site. -/
def Available (f : Func) (joins : Joins) (v : ValueId) (t : Site) : Prop :=
  ∀ s, Written f joins v s → s.Before f t

theorem Available.mono {f : Func} {joins : Joins} {v : ValueId} {s t : Site}
    (h : Available f joins v s) (hst : s.Before f t) : Available f joins v t :=
  fun r hr => (h r hr).trans hst

/-- Two values that are available and equal at a site; if one of them is the cell, both are. -/
structure Same (f : Func) (cell : Cell) (joins : Joins) (t : Site) (v w : ValueId) : Prop where
  left : Available f joins v t
  right : Available f joins w t
  cell_iff : v = cell.value ↔ w = cell.value
  eq : ∀ x, Reached f cell joins t x → x.env v = x.env w

/-- A value that is available at a site and is there what the cell holds. -/
structure Copies (f : Func) (cell : Cell) (joins : Joins) (t : Site) (v : ValueId) : Prop where
  available : Available f joins v t
  ne : v ≠ cell.value
  eq : ∀ x, Reached f cell joins t x → x.env v = cell.content x

end Cell

structure Promotable (f : Func) (d : Dominance) (cell : Cell) : Prop where
  sound : f.Sound
  formed : f.Formed
  slots : f.SlotsLive
  verified : f.Verified d
  isIn : cell.IsIn f d

/-- A promotable cell with fresh join values at blocks below its creation. Where a store, or a join,
stops dominating there is a join. -/
structure Promoting (f : Func) (d : Dominance) (cell : Cell) (joins : Joins) : Prop
    extends Promotable f d cell where
  join_fresh : ∀ b v, joins b = some v → f.values.get? v = none
  join_unique : ∀ b c v, joins b = some v → joins c = some v → b = c
  join_below : ∀ b v, joins b = some v → f.StrictlyDominates cell.home b
  join_closed : ∀ y q b,
    (∃ e ∈ f.instsOf y, e.2.opcode = .setRef ∧ cell.value ∈ e.2.operands) ∨
      (∃ v, joins y = some v) →
    f.Dominates y q → f.Edge q b → ¬ f.StrictlyDominates y b → f.StrictlyDominates cell.home b →
    ∃ v, joins b = some v

namespace Promoting

open Cell

variable {f : Func} {d : Dominance} {cell : Cell} {joins : Joins} {b c : BlockId} {k : Nat}
  {s t : Site} {v w : ValueId} {x : Execution ValueId Term Memory} {e : InstId × Inst}

theorem reachable (h : Promoting f d cell joins) (hx : Reached f cell joins s x) :
    f.Reachable s.block ∧ s.Within f := by
  induction hx with
  | start => exact ⟨.refl _, Nat.zero_le _⟩
  | inst _ hk ih =>
    obtain ⟨hlt, -⟩ := List.getElem?_eq_some_iff.1 hk
    exact ⟨ih.1, hlt⟩
  | edge _ hc ih =>
    refine ⟨ih.1.step ?_, Nat.zero_le _⟩
    exact h.sound.linked.edge_of_successor h.verified.dominance ih.1 hc

theorem env_inst (hk : (f.instsOf b)[k]? = some e) (hv : ¬ Written f joins v ⟨b, k + 1⟩) :
    (x.runInst cell.machine id e).env v = x.env v := by
  rw [Execution.env_runInst, if_neg fun hr => hv (.inst hk hr)]

theorem env_edge (hv : ¬ Written f joins v ⟨c, 0⟩) :
    (cell.note joins c (x.runPhis id b (f.phisOf c))).env v = x.env v := by
  rw [env_note, if_neg fun hj => hv (.join hj)]
  exact Execution.env_runPhis_of_ne fun e he heq => hv (.phi he heq)

/-- Values that are equal at a site stay equal at all that comes after it: neither is written
before control comes by the site again. -/
theorem same_of_before (h : Promoting f d cell joins) (hs : s.Within f)
    (hsame : Same f cell joins s v w) (hst : s.Before f t) : Same f cell joins t v w := by
  refine ⟨hsame.left.mono hst, hsame.right.mono hst, hsame.cell_iff, fun x hx => ?_⟩
  induction hx with
  | start =>
    rcases hst with ⟨hb, hle⟩ | hd
    · obtain rfl : s = ⟨f.entry, 0⟩ := Site.ext hb (Nat.le_zero.1 hle)
      exact hsame.eq _ .start
    · exact absurd hd.2.eq_root hd.1
  | @inst b k x e hx hk ih =>
    rcases hst.of_succ with rfl | hbefore
    · exact hsame.eq _ (.inst hx hk)
    · have hfree : ∀ u, Available f joins u s → ¬ Written f joins u ⟨b, k + 1⟩ := by
        intro u hu hwritten
        exact Site.Before.not_succ_self ((hu _ hwritten).trans hbefore)
      rw [env_inst hk (hfree v hsame.left), env_inst hk (hfree w hsame.right)]
      exact ih hbefore
  | @edge b c x hx hc ih =>
    have hreach := (h.reachable hx).1
    have hedge := h.sound.linked.edge_of_successor h.verified.dominance hreach hc
    -- The edge leads to `s` itself, or `s` was passed before it and neither value is written again.
    by_cases heq : s = ⟨c, 0⟩
    · subst heq
      exact hsame.eq _ (.edge hx hc)
    · have hbefore := (hst.of_edge hs hreach hedge).resolve_left heq
      have hfree : ∀ u, Available f joins u s → ¬ Written f joins u ⟨c, 0⟩ :=
        fun u hu hwritten => heq (hst.antisymm (hu _ hwritten))
      rw [env_edge (hfree v hsame.left), env_edge (hfree w hsame.right)]
      exact ih hbefore

theorem written_iff (h : Promoting f d cell joins) {val : Value} (hv : f.values.get? v = some val)
    (hw : Written f joins v s) :
    (∃ e : InstId × Inst, ∃ k, val.definition = .inst e.1 ∧ s = ⟨s.block, k + 1⟩ ∧
        (f.instsOf s.block)[k]? = some e) ∨
      ∃ e : PhiId × Phi, val.definition = .phi e.1 ∧ s = ⟨s.block, 0⟩ ∧ e ∈ f.phisOf s.block := by
  cases hw with
  | @inst b k e _ hk hr =>
    obtain ⟨-, -, -, hi⟩ := Func.mem_instsOf.1 (List.mem_of_getElem? hk)
    obtain ⟨val', hval', hdef⟩ := h.sound.linked.inst_result _ _ _ hi hr
    obtain rfl := Option.some.inj (hv.symm.trans hval')
    exact .inl ⟨e, k, hdef, rfl, hk⟩
  | @phi b e _ he hr =>
    obtain ⟨-, -, -, hp⟩ := Func.mem_phisOf.1 he
    obtain ⟨val', hval', hdef⟩ := h.sound.linked.phi_result _ _ hp
    rw [hr] at hval'
    obtain rfl := Option.some.inj (hv.symm.trans hval')
    exact .inr ⟨e, hdef, rfl, he⟩
  | join hj =>
    rw [h.join_fresh _ _ hj] at hv
    cases hv

theorem available_of_availableAt (h : Promoting f d cell joins) (hb : f.Reachable b)
    (hlive : f.values.contains v = true) (position : Option Nat)
    (hv : f.availableAt d v b position = true) :
    Available f joins v ⟨b, position.getD (f.instsOf b).length⟩ := by
  obtain ⟨hdom, hwithin⟩ :=
    (Func.availableAt_iff h.sound.linked h.verified.dominance hlive hb position).1 hv
  obtain ⟨val, hval⟩ := Option.isSome_iff_exists.1 hlive
  intro s hw
  rcases h.written_iff hval hw with ⟨e, k, hdef, hs, hk⟩ | ⟨e, hdef, hs, he⟩
  · obtain ⟨data, hdata, hpos, hi⟩ := h.sound.linked.getElem?_instsOf.1 hk
    have hblock := h.sound.linked.block_of_instsOf (List.mem_of_getElem? hk)
    by_cases heq : s.block = b
    · refine .inl ⟨heq, ?_⟩
      rw [hs]
      cases position with
      | none => exact heq ▸ (List.getElem?_eq_some_iff.1 hk).1
      | some n => exact hwithin n rfl val data e.1 k hval hdef (heq ▸ hdata) hpos
    · exact .inr ⟨heq, hblock ▸ hdom _ (.inst hval hdef hi)⟩
  · obtain ⟨data, hdata, hmem, hp⟩ := Func.mem_phisOf.1 he
    obtain ⟨phi, hphi, hblock⟩ := h.sound.linked.listed_phi _ _ _ hdata hmem
    by_cases heq : s.block = b
    · refine .inl ⟨heq, ?_⟩
      rw [hs]
      exact Nat.zero_le _
    · exact .inr ⟨heq, hblock ▸ hdom _ (.phi hval hdef hphi)⟩

theorem available_operand (h : Promoting f d cell joins) (hb : f.Reachable b)
    (hk : (f.instsOf b)[k]? = some e) (hv : v ∈ e.2.operands) : Available f joins v ⟨b, k⟩ := by
  obtain ⟨data, hdata, hpos, hi⟩ := h.sound.linked.getElem?_instsOf.1 hk
  have hlive := h.slots.operand _ _ v hi hv
  exact h.available_of_availableAt hb hlive (some k) (h.verified.operand b data k e.1 e.2 v
    (h.verified.dominance.isReachable_iff.2 hb) hdata hpos hi hv)

theorem available_source (h : Promoting f d cell joins) (hb : f.Reachable b) {p : PhiId × Phi}
    (hp : p ∈ f.phisOf c) (hv : p.2.source b = some v) : Available f joins v (.exit f b) := by
  obtain ⟨data, hdata, hmem, hphi⟩ := Func.mem_phisOf.1 hp
  have hlive := h.slots.source _ _ b v hphi hv
  exact h.available_of_availableAt hb hlive none (h.verified.source c data p.1 p.2 b v hdata
    hmem hphi hv (h.verified.dominance.isReachable_iff.2 hb))

end Promoting

end Midend
