import Midend.Proofs.Promotion.Reached

namespace Midend

open Cell

/-- Nothing but its own value holds the cell. -/
structure Cell.Sealed (cell : Cell) (x : Execution ValueId Term Memory) : Prop where
  other : ∀ v n, v ≠ cell.value → x.env v ≠ .cell cell.creation n
  memory : ∀ j k n, x.state.content j k ≠ .cell cell.creation n
  own : ∀ j n, x.env cell.value = .cell j n → j = cell.creation

def Cell.Stores (cell : Cell) (inst : Inst) (w : ValueId) : Prop :=
  inst.opcode = .setRef ∧ inst.operands.head? = some cell.value ∧ inst.operands[1]? = some w

namespace Cell.Sealed

variable {cell : Cell} {x : Execution ValueId Term Memory}

theorem content_ne (h : cell.Sealed x) (n : Nat) : cell.content x ≠ .cell cell.creation n := by
  unfold content
  cases hx : x.env cell.value with
  | cell j k => exact h.memory j k n
  | undefined => simp [Memory.fetch]
  | atom v => simp [Memory.fetch]
  | node i k args => simp [Memory.fetch]

theorem view_ne (h : cell.Sealed x) {op : Opcode} {v : ValueId} {n : Nat}
    (hv : v = cell.value → ∃ proto, op = .closure proto) :
    cell.machine.view op v x.state (x.env v) ≠ .cell cell.creation n := by
  by_cases hc : v = cell.value
  · obtain ⟨proto, rfl⟩ := hv hc
    subst hc
    simp only [symbolic, if_true]
    exact h.content_ne n
  · have hview : cell.machine.view op v x.state (x.env v) = x.env v := by
      simp only [symbolic]
      split
      · rw [if_neg fun heq => hc (Option.some.inj heq).symm]
      · rfl
    rw [hview]
    exact h.other v n hc

end Cell.Sealed

namespace Promoting

variable {f : Func} {d : Dominance} {cell : Cell} {joins : Joins} {b c : BlockId} {k : Nat}
  {s t : Site} {v w : ValueId} {x : Execution ValueId Term Memory} {e : InstId × Inst}
  {copied : Option ValueId}

theorem value_get? (h : Promoting f d cell joins) :
    ∃ val, f.values.get? cell.value = some val ∧ val.definition = .inst cell.creation := by
  obtain ⟨inst, hi, -, hres, -⟩ := h.isIn.creation
  exact h.sound.linked.inst_result _ _ _ hi hres

theorem join_ne (h : Promoting f d cell joins) (hj : joins b = some v) : v ≠ cell.value := by
  rintro rfl
  obtain ⟨val, hval, -⟩ := h.value_get?
  rw [h.join_fresh _ _ hj] at hval
  cases hval

theorem phi_ne (h : Promoting f d cell joins) {p : PhiId × Phi} (hp : p ∈ f.phisOf b) :
    p.2.result ≠ cell.value := by
  intro heq
  obtain ⟨-, -, -, hphi⟩ := Func.mem_phisOf.1 hp
  obtain ⟨val, hval, hdef⟩ := h.value_get?
  obtain ⟨val', hval', hdef'⟩ := h.sound.linked.phi_result _ _ hphi
  rw [heq, hval] at hval'
  obtain rfl := Option.some.inj hval'
  rw [hdef] at hdef'
  cases hdef'

theorem creation_iff (h : Promoting f d cell joins) (hi : f.insts.get? e.1 = some e.2) :
    e.1 = cell.creation ↔ e.2.result = some cell.value := by
  obtain ⟨inst, hinst, -, hres, -⟩ := h.isIn.creation
  constructor
  · intro heq
    rw [heq, hinst] at hi
    rw [← Option.some.inj hi, hres]
  · intro hr
    obtain ⟨val, hval, hdef⟩ := h.value_get?
    obtain ⟨val', hval', hdef'⟩ := h.sound.linked.inst_result _ _ _ hi hr
    obtain rfl := Option.some.inj (hval.symm.trans hval')
    exact Definition.inst.inj (hdef'.symm.trans hdef)

theorem access (h : Promoting f d cell joins) (hi : f.insts.get? e.1 = some e.2)
    (hc : cell.value ∈ e.2.operands) :
    (e.2.opcode = .getRef ∧ e.2.operands.head? = some cell.value) ∨
    (e.2.opcode = .setRef ∧ e.2.operands.head? = some cell.value ∧
      e.2.operands[1]? ≠ some cell.value) ∨
    ∃ proto, e.2.opcode = .closure proto := by
  obtain ⟨u, hu, hinst⟩ := h.isIn.listed _ _ hi hc
  obtain ⟨inst, hget, -, -, hfits⟩ := h.isIn.use u hu
  rw [hinst, hi] at hget
  obtain rfl := Option.some.inj hget
  cases u with
  | load j => exact .inl hfits
  | store j => exact .inr (.inl hfits)
  | capture j => exact .inr (.inr hfits)

theorem user_reachable (h : Promoting f d cell joins) (hi : f.insts.get? e.1 = some e.2)
    (hc : cell.value ∈ e.2.operands) : f.Reachable e.2.block := by
  obtain ⟨u, hu, hinst⟩ := h.isIn.listed _ _ hi hc
  obtain ⟨inst, hget, hreach, -⟩ := h.isIn.use u hu
  rw [hinst, hi] at hget
  obtain rfl := Option.some.inj hget
  exact h.verified.dominance.isReachable_iff.1 hreach

theorem available_user (h : Promoting f d cell joins) (hk : (f.instsOf b)[k]? = some e)
    (hc : cell.value ∈ e.2.operands) :
    f.Reachable b ∧ Available f joins cell.value ⟨b, k⟩ := by
  obtain ⟨-, -, -, hi⟩ := Func.mem_instsOf.1 (List.mem_of_getElem? hk)
  have hb := h.user_reachable hi hc
  rw [h.sound.linked.block_of_instsOf (List.mem_of_getElem? hk)] at hb
  exact ⟨hb, h.available_operand hb hk hc⟩

theorem creation_opcode (h : Promoting f d cell joins) (hi : f.insts.get? e.1 = some e.2)
    (heq : e.1 = cell.creation) : e.2.opcode = .newRef := by
  obtain ⟨inst, hinst, hop, -⟩ := h.isIn.creation
  rw [← heq, hi] at hinst
  rw [Option.some.inj hinst, hop]

theorem created_ne (h : Promoting f d cell joins) (hx : cell.Sealed x)
    (hi : f.insts.get? e.1 = some e.2) (hop : e.2.opcode = .newRef) (n : Nat) :
    (x.operands (symbolic copied) id e.2).head?.getD .undefined ≠ .cell cell.creation n := by
  cases hops : e.2.operands with
  | nil => simp [Execution.operands, hops]
  | cons v rest =>
    simp only [Execution.operands, hops, List.map_cons, List.head?_cons, Option.getD_some]
    rw [symbolic_view fun proto hc => by simp [hop] at hc]
    refine hx.other v n fun hv => ?_
    have hmem : cell.value ∈ e.2.operands := by
      rw [hops, ← hv]
      exact List.mem_cons_self
    rcases h.access hi hmem with ⟨hget, -⟩ | ⟨hset, -⟩ | ⟨proto, hclosure⟩
    · simp [hop] at hget
    · simp [hop] at hset
    · simp [hop] at hclosure

theorem stored_ne (h : Promoting f d cell joins) (hx : cell.Sealed x)
    (hi : f.insts.get? e.1 = some e.2) (hop : e.2.opcode = .setRef) {target stored : Term}
    {rest : List Term} (hargs : x.operands (symbolic copied) id e.2 = target :: stored :: rest)
    (n : Nat) : stored ≠ .cell cell.creation n := by
  obtain ⟨v, tail, hops, -, htail⟩ := List.map_eq_cons_iff.1 hargs
  obtain ⟨w, tail', rfl, rfl, -⟩ := List.map_eq_cons_iff.1 htail
  rw [symbolic_view fun proto hc => by simp [hop] at hc]
  refine hx.other w n fun hw => ?_
  have hmem : cell.value ∈ e.2.operands := by
    rw [hops, ← hw]
    simp
  rcases h.access hi hmem with ⟨hget, -⟩ | ⟨-, -, hne⟩ | ⟨proto, hclosure⟩
  · simp [hop] at hget
  · exact absurd (by rw [hops, ← hw]; rfl) hne
  · simp [hop] at hclosure

/-- The result of a step is the cell if it is made here and only then, and memory does not come to
hold it. -/
theorem sealed_step (h : Promoting f d cell joins) (hx : cell.Sealed x)
    (hi : f.insts.get? e.1 = some e.2) :
    let out := (symbolic copied).step e.1 e.2.opcode (x.operands (symbolic copied) id e.2) x.state
    (∀ n, out.1 = .cell cell.creation n → e.1 = cell.creation) ∧
      (e.1 = cell.creation → ∃ n, out.1 = .cell cell.creation n) ∧
      ∀ j k n, out.2.content j k ≠ .cell cell.creation n := by
  intro out
  -- By what the step does: make a cell, load, store, or build a term.
  have hcreation : e.2.opcode ≠ .newRef → e.1 ≠ cell.creation :=
    fun hop heq => hop (h.creation_opcode hi heq)
  have hout : (symbolic copied).step e.1 e.2.opcode (x.operands (symbolic copied) id e.2) x.state =
      out := rfl
  rcases symbolic_step_cases copied e.1 e.2.opcode (x.operands (symbolic copied) id e.2)
      x.state with
    ⟨hop, heq⟩ | ⟨hop, j, m, rest, -, heq⟩ | ⟨hop, j, m, a, rest, ha, heq⟩ | ⟨hop, heq⟩
  · rw [← hout, heq]
    refine ⟨fun n heq => (Term.cell.inj heq).1, fun heq => ⟨_, by rw [heq]⟩, fun j k n => ?_⟩
    simp only [Memory.store, Memory.content_tick]
    split
    · exact h.created_ne hx hi hop n
    · exact hx.memory j k n
  · rw [← hout, heq]
    exact ⟨fun n heq => absurd heq (hx.memory j m n),
      fun heq => absurd heq (hcreation (by simp [hop])), hx.memory⟩
  · rw [← hout, heq]
    refine ⟨fun n heq => by simp at heq, fun heq => absurd heq (hcreation (by simp [hop])),
      fun j' k n => ?_⟩
    simp only [Memory.store, Memory.content_tick]
    split
    · exact h.stored_ne hx hi hop ha n
    · exact hx.memory j' k n
  · rw [← hout, heq]
    exact ⟨fun n heq => by simp at heq, fun heq => absurd heq (hcreation hop), hx.memory⟩

theorem sealed_inst (h : Promoting f d cell joins) (hx : cell.Sealed x)
    (hi : f.insts.get? e.1 = some e.2) : cell.Sealed (x.runInst (symbolic copied) id e) := by
  obtain ⟨hnew, hmade, hmemory⟩ := h.sealed_step hx hi
  have hiff := h.creation_iff hi
  refine ⟨fun v n hv => ?_, fun j k n => ?_, fun j n => ?_⟩
  · rw [Execution.env_runInst]
    split
    · rename_i hr
      intro heq
      exact hv (Option.some.inj (hr.symm.trans (hiff.1 (hnew n heq))))
    · exact hx.other v n hv
  · rw [Execution.state_runInst]
    exact hmemory j k n
  · rw [Execution.env_runInst]
    split
    · rename_i hr
      obtain ⟨m, hm⟩ := hmade (hiff.2 hr)
      intro heq
      exact (Term.cell.inj (heq.symm.trans hm)).1
    · exact hx.own j n

theorem sealed_phis (h : Promoting f d cell joins) (hx : cell.Sealed x) :
    cell.Sealed (x.runPhis id b (f.phisOf c)) := by
  refine ⟨fun v n hv => ?_, by simpa using hx.memory, fun j n => ?_⟩
  · rcases x.env_runPhis_cases b (f.phisOf c) v with heq | ⟨e, he, w, -, hw, heq⟩
    · rw [heq]
      exact hx.other v n hv
    · rw [heq]
      refine hx.other w n ?_
      rintro rfl
      obtain ⟨-, -, -, hp⟩ := Func.mem_phisOf.1 he
      exact h.isIn.source _ _ _ hp hw
  · rw [Execution.env_runPhis_of_ne fun e he => h.phi_ne he]
    exact hx.own j n

theorem sealed_edge (h : Promoting f d cell joins) (hx : cell.Sealed x) :
    cell.Sealed (cell.note joins c (x.runPhis id b (f.phisOf c))) := by
  have hphis := h.sealed_phis hx (b := b) (c := c)
  refine ⟨fun v n hv => ?_, by simpa using hx.memory, fun j n => ?_⟩
  · rw [env_note]
    split
    · exact hphis.content_ne n
    · exact hphis.other v n hv
  · rw [env_note, if_neg fun hj => h.join_ne hj rfl]
    exact hphis.own j n

theorem start_ne_cell (f : Func) (v : ValueId) (i : InstId) (n : Nat) :
    f.start.env v ≠ .cell i n := by
  by_cases hv : v ∈ f.arguments
  · have hval : f.start.env v = .atom v := by
      refine Execution.env_writeAll_of_mem (w := (v, Term.atom v)) (List.mem_map.2 ⟨v, hv, rfl⟩) ?_
      rintro w hw rfl
      obtain ⟨u, -, rfl⟩ := List.mem_map.1 hw
      rfl
    simp [hval]
  · have hval : f.start.env v = f.initial .undefined .atom v := by
      refine Execution.env_writeAll_of_notMem fun w hw => ?_
      obtain ⟨u, hu, rfl⟩ := List.mem_map.1 hw
      rintro rfl
      exact hv hu
    rw [hval, Func.initial]
    split <;> simp

theorem sealed_of_reached (h : Promoting f d cell joins) (hx : Reached f cell joins t x) :
    cell.Sealed x := by
  induction hx with
  | start =>
    refine ⟨fun v n _ => start_ne_cell f v _ n, fun j k n => ?_, fun j n heq => ?_⟩
    · simp [Func.start, Memory.empty]
    · exact absurd heq (start_ne_cell f _ j n)
  | inst _ hk ih =>
    obtain ⟨-, -, -, hi⟩ := Func.mem_instsOf.1 (List.mem_of_getElem? hk)
    exact h.sealed_inst ih hi
  | edge _ _ ih => exact h.sealed_edge ih

theorem creation_place (h : Promoting f d cell joins) : ∃ (k : Nat) (inst : Inst),
    (f.instsOf cell.home)[k]? = some (cell.creation, inst) ∧ inst.opcode = .newRef ∧
      inst.result = some cell.value ∧ inst.operands.head? = some cell.initial := by
  obtain ⟨inst, hi, hop, hres, hargs, hblock⟩ := h.isIn.creation
  obtain ⟨k, hk⟩ := h.sound.linked.exists_getElem?_instsOf hi
  exact ⟨k, inst, hblock ▸ hk, hop, hres, hargs⟩

theorem written_cell (h : Promoting f d cell joins) (hw : Written f joins cell.value s) :
    s.block = cell.home ∧ ∃ k inst, (f.instsOf cell.home)[k]? = some (cell.creation, inst) ∧
      s.done = k + 1 := by
  cases hw with
  | @inst b k e _ hk hr =>
    obtain ⟨-, -, -, hi⟩ := Func.mem_instsOf.1 (List.mem_of_getElem? hk)
    have heq := (h.creation_iff hi).2 hr
    obtain ⟨inst, hinst, -, -, -, hblock⟩ := h.isIn.creation
    have hb := h.sound.linked.block_of_instsOf (List.mem_of_getElem? hk)
    rw [heq, hinst] at hi
    obtain rfl : b = cell.home := by rw [← hb, ← Option.some.inj hi, hblock]
    exact ⟨rfl, k, e.2, by rw [hk, ← heq], rfl⟩
  | phi he hr => exact absurd hr (h.phi_ne he)
  | join hj => exact absurd rfl (h.join_ne hj)

theorem exists_cell (h : Promoting f d cell joins) (hc : Available f joins cell.value t)
    (hx : Reached f cell joins t x) : ∃ n, x.env cell.value = .cell cell.creation n := by
  obtain ⟨j, inst, hj, hop, hres, -⟩ := h.creation_place
  have hwritten : Written f joins cell.value ⟨cell.home, j + 1⟩ := .inst hj hres
  have hwithin : (⟨cell.home, j + 1⟩ : Site).Within f := (List.getElem?_eq_some_iff.1 hj).1
  -- Only the site after the creation writes the cell, so it keeps its value from there on.
  have honly : ∀ s, Written f joins cell.value s → s = ⟨cell.home, j + 1⟩ := by
    intro s hs
    obtain ⟨hb, k, inst', hk, hdone⟩ := h.written_cell hs
    have := h.sound.linked.place_unique hj hk rfl
    exact Site.ext hb (by rw [hdone, this])
  have hbefore := hc _ hwritten
  clear hc
  induction hx with
  | start =>
    rcases hbefore with ⟨-, hle⟩ | hd
    · exact absurd hle (Nat.not_succ_le_zero _)
    · exact absurd hd.2.eq_root hd.1
  | @inst b k x e hx hk ih =>
    by_cases heq : (⟨b, k + 1⟩ : Site) = ⟨cell.home, j + 1⟩
    · obtain ⟨rfl, hkj⟩ := Site.mk.inj heq
      obtain rfl : k = j := Nat.succ.inj hkj
      rw [hj] at hk
      obtain rfl := Option.some.inj hk
      refine ⟨x.state.count cell.creation, ?_⟩
      rw [Execution.env_runInst, if_pos hres, hop]
      rfl
    · rw [env_inst hk fun hw => heq (honly _ hw)]
      exact ih (hbefore.of_succ.resolve_left (Ne.symm heq))
  | @edge b c x hx hc ih =>
    have hreach := (h.reachable hx).1
    have hedge := h.sound.linked.edge_of_successor h.verified.dominance hreach hc
    rw [env_edge fun hw => by simpa using honly _ hw]
    exact ih ((hbefore.of_edge hwithin hreach hedge).resolve_left (by simp))

theorem content_of_cell {n : Nat} (hx : x.env cell.value = .cell cell.creation n) :
    cell.content x = x.state.content cell.creation n := by
  rw [content, hx]
  rfl

theorem content_inst (h : Promoting f d cell joins) (hx : cell.Sealed x)
    (hi : f.insts.get? e.1 = some e.2) (hne : e.1 ≠ cell.creation)
    (hstore : ∀ w, ¬ cell.Stores e.2 w) :
    cell.content (x.runInst cell.machine id e) = cell.content x := by
  have henv : (x.runInst cell.machine id e).env cell.value = x.env cell.value := by
    rw [Execution.env_runInst, if_neg fun hr => hne ((h.creation_iff hi).2 hr)]
  rw [content, content, henv]
  cases hc : x.env cell.value with
  | cell j n =>
    obtain rfl := hx.own j n hc
    rw [Execution.state_runInst]
    rcases symbolic_step_cases (some cell.value) e.1 e.2.opcode
        (x.operands cell.machine id e.2) x.state with
      ⟨-, heq⟩ | ⟨-, _, _, _, -, heq⟩ | ⟨hop, j, m, a, rest, ha, heq⟩ | ⟨-, heq⟩
    · rw [heq]
      exact if_neg fun hand => hne hand.1.symm
    · rw [heq]
      rfl
    · rw [heq]
      refine if_neg ?_
      rintro ⟨rfl, -⟩
      -- A store that meets the cell has it as its operand.
      obtain ⟨v, tail, hops, hv, htail⟩ := List.map_eq_cons_iff.1 ha
      obtain ⟨w, tail', rfl, -, -⟩ := List.map_eq_cons_iff.1 htail
      have hv' : x.env v = .cell cell.creation m := by
        rw [hop] at hv
        exact hv
      have hvc : v = cell.value := by
        by_contra hvc
        exact hx.other v m hvc hv'
      exact hstore w ⟨hop, by rw [hops, hvc]; rfl, by rw [hops]; rfl⟩
    · rw [heq]
      rfl
  | undefined => rfl
  | atom v => rfl
  | node i n args => rfl

theorem content_store (h : Promoting f d cell joins) {n : Nat}
    (hx : x.env cell.value = .cell cell.creation n) (hi : f.insts.get? e.1 = some e.2)
    (hw : cell.Stores e.2 w) : cell.content (x.runInst cell.machine id e) = x.env w := by
  obtain ⟨hop, hhead, hsecond⟩ := hw
  have hne : e.1 ≠ cell.creation := by
    intro heq
    rw [h.creation_opcode hi heq] at hop
    cases hop
  have henv : (x.runInst cell.machine id e).env cell.value = .cell cell.creation n := by
    rw [Execution.env_runInst, if_neg fun hr => hne ((h.creation_iff hi).2 hr), hx]
  rw [content_of_cell henv, Execution.state_runInst]
  match hops : e.2.operands with
  | [] => simp [hops] at hhead
  | [_] => simp [hops] at hsecond
  | v :: u :: rest =>
    rw [hops] at hhead hsecond
    obtain rfl := Option.some.inj hhead
    obtain rfl := Option.some.inj hsecond
    have hargs : x.operands cell.machine id e.2 =
        .cell cell.creation n :: x.env u :: rest.map fun v => x.env v := by
      simp only [Execution.operands, hops, hop, List.map_cons, symbolic, id, hx]
    rw [hop, hargs]
    simp [symbolic, Memory.store]

theorem env_load {n : Nat} {r : ValueId} (hx : x.env cell.value = .cell cell.creation n)
    (hop : e.2.opcode = .getRef) (hhead : e.2.operands.head? = some cell.value)
    (hr : e.2.result = some r) :
    (x.runInst cell.machine id e).env r = cell.content x := by
  rw [Execution.env_runInst, if_pos hr, content_of_cell hx]
  cases hops : e.2.operands with
  | nil => simp [hops] at hhead
  | cons v rest =>
    rw [hops] at hhead
    obtain rfl := Option.some.inj hhead
    have hargs : x.operands cell.machine id e.2 =
        .cell cell.creation n :: rest.map fun v => x.env v := by
      simp only [Execution.operands, hops, hop, List.map_cons, symbolic, id, hx]
    rw [hop, hargs]
    rfl

theorem content_creation (h : Promoting f d cell joins) (hi : f.insts.get? e.1 = some e.2)
    (heq : e.1 = cell.creation) :
    cell.content (x.runInst cell.machine id e) = x.env cell.initial := by
  obtain ⟨inst, hinst, hop, hres, hhead, -⟩ := h.isIn.creation
  rw [← heq, hi] at hinst
  obtain rfl := Option.some.inj hinst
  have henv : (x.runInst cell.machine id e).env cell.value =
      .cell cell.creation (x.state.count e.1) := by
    rw [Execution.env_runInst, if_pos hres, hop, ← heq]
    rfl
  rw [content_of_cell henv, Execution.state_runInst]
  cases hops : e.2.operands with
  | nil => simp [hops] at hhead
  | cons v rest =>
    rw [hops] at hhead
    obtain rfl := Option.some.inj hhead
    have hargs : x.operands cell.machine id e.2 =
        x.env cell.initial :: rest.map fun v => x.env v := by
      simp only [Execution.operands, hops, hop, List.map_cons, symbolic, id]
    rw [hop, hargs, ← heq]
    simp [symbolic, Memory.store]

end Promoting

end Midend
