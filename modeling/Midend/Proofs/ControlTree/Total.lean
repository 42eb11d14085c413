import Midend.Proofs.ControlTree.Coverage
import Midend.Proofs.Promotion.Promote

/-!
When the control tree can be built. A chain places a block that was free before it goes on, so its
depth stays below the number of blocks, and each round takes a new entry; so nothing can stop the
construction but a reachable block that goes on nowhere. With the operands that a terminator asks
for, that is a block without a terminator. The verifier accepts no such block.
-/

namespace Midend

namespace Func

variable {α β : Type} {f : Func} {dom : Dominance} {fuel : Nat} {placed : IndexSet} {b : BlockId}

theorem continuation_ok (hf : f.Formed) (hb : f.Terminated b) : ∃ k, f.continuation b = .ok k := by
  obtain ⟨data, i, inst, hdata, hlast, hi, hend⟩ := hb
  have hterm : f.terminator b = .ok (some i) := by
    refine bind_eq_ok.2 ⟨data, block_eq_ok.2 hdata, ?_⟩
    rw [hlast]
    refine bind_eq_ok.2 ⟨inst, inst_eq_ok.2 hi, ?_⟩
    rw [if_pos hend]
    rfl
  have hinst : f.inst i = .ok inst := inst_eq_ok.2 hi
  simp only [continuation, hterm, hinst, bind, Except.bind]
  cases hop : inst.opcode with
  | condBranch t e =>
    dsimp only
    split
    · exact ⟨_, rfl⟩
    · have harity := (hf i inst hi).arity
      rw [hop] at harity
      cases hoperands : inst.operands with
      | nil => simp [hoperands, Opcode.arity, Arity.accepts] at harity
      | cons condition rest => exact ⟨_, rfl⟩
  | _ => exact ⟨_, rfl⟩

theorem terminated_of_continuation {k : Continuation} (h : f.continuation b = .ok k) :
    f.Terminated b := by
  obtain ⟨i, inst, hterm, hi, -⟩ := continuation_eq_ok h
  obtain ⟨data, hdata, hterm⟩ := bind_eq_ok.1 hterm
  cases hlast : data.last with
  | none =>
    rw [hlast] at hterm
    cases hterm
  | some last =>
    rw [hlast] at hterm
    obtain ⟨inst', hinst, hterm⟩ := bind_eq_ok.1 hterm
    replace hterm := pure_eq_ok.1 hterm
    split at hterm
    · obtain rfl := Option.some.inj hterm
      exact ⟨data, last, inst', block_eq_ok.1 hdata, hlast, inst_eq_ok.1 hinst, ‹_›⟩
    · cases hterm

theorem continuation_error {e : Error} (hf : f.Sound) (hformed : f.Formed)
    (hb : f.hasBlock b = true) (h : f.continuation b = .error e) :
    ¬ f.Terminated b ∧ e = .invariant (.noTerminator b) := by
  have hnot : ¬ f.Terminated b := by
    intro hterm
    obtain ⟨k, hk⟩ := continuation_ok hformed hterm
    rw [hk] at h
    cases h
  refine ⟨hnot, ?_⟩
  obtain ⟨data, hdata⟩ := hasBlock_iff.1 hb
  have hterm : f.terminator b = .ok none := by
    refine bind_eq_ok.2 ⟨data, block_eq_ok.2 hdata, ?_⟩
    cases hlast : data.last with
    | none => rfl
    | some last =>
      have hin : last ∈ data.insts := List.mem_of_getLast? hlast
      obtain ⟨inst, hinst, -⟩ := hf.linked.listed_inst b data last hdata hin
      have hend : inst.isTerminator = false :=
        Bool.eq_false_iff.2 fun hend => hnot ⟨data, last, inst, hdata, hlast, hinst, hend⟩
      refine bind_eq_ok.2 ⟨inst, inst_eq_ok.2 hinst, ?_⟩
      rw [hend]
      rfl
  rw [continuation, hterm] at h
  exact (Except.error.inj h).symm

/-- A result, or else the error of a reachable block that does not go on. -/
def Settles (f : Func) (dom : Dominance) (r : Except Error α) : Prop :=
  (∃ a, r = .ok a) ∨
    ∃ b e, dom.isReachable b = true ∧ f.continuation b = .error e ∧ r = .error e

theorem Settles.bind {r : Except Error α} {k : α → Except Error β} (h : f.Settles dom r)
    (hk : ∀ a, r = .ok a → f.Settles dom (k a)) : f.Settles dom (r >>= k) := by
  rcases h with ⟨a, rfl⟩ | ⟨b, e, hb, hcont, rfl⟩
  · exact hk a rfl
  · exact .inr ⟨b, e, hb, hcont, rfl⟩

/-- A chain settles if the fuel covers the free blocks. -/
theorem chain_settles (hf : f.Sound) (hd : dom.IsOf f) (hb : dom.isReachable b = true)
    (hfree : ¬ placed.Has b) (hfuel : (f.room placed).card ≤ fuel) :
    f.Settles dom (f.chain dom fuel placed b) := by
  have hlt := room_insert_lt (hf.linked.index_lt hd hb) hfree
  induction fuel generalizing placed b with
  | zero => omega
  | succ fuel ih =>
    have hroom : (f.room (placed.insert b.index)).card ≤ fuel := by omega
    replace ih : ∀ {placed : IndexSet} {b : BlockId}, dom.isReachable b = true → ¬ placed.Has b →
        (f.room placed).card ≤ fuel → f.Settles dom (f.chain dom fuel placed b) :=
      fun hb hfree hfuel => ih hb hfree hfuel (room_insert_lt (hf.linked.index_lt hd hb) hfree)
    cases hcont : f.continuation b with
    | error e => exact .inr ⟨b, e, hb, hcont, chain_of_error hcont⟩
    | ok k =>
      have hfollow : ∀ {placed : IndexSet} {target : BlockId}, target ∈ k.targets →
          (f.room placed).card ≤ fuel → f.Settles dom (f.follow dom fuel placed b target) := by
        intro placed target htarget hroom
        unfold follow
        split
        · rename_i hin
          have hedge := mem_livePredecessors_of_continuation hf hd hb hcont htarget
          exact ih (hd.isReachable_of_mem hedge) (inlinable_iff.1 hin).2.1 hroom
        · exact .inl ⟨_, rfl⟩
      cases k with
      | leave => exact .inl ⟨_, chain_of_leave hcont⟩
      | next target =>
        rw [chain_of_next hcont]
        exact (hfollow (by simp [Continuation.targets]) hroom).bind fun rest _ => .inl ⟨_, rfl⟩
      | choose condition ifTrue ifFalse =>
        rw [chain_of_choose hcont]
        -- Each arm leaves no more room than there was, so the fuel covers what comes after it.
        refine (hfollow (by simp [Continuation.targets]) hroom).bind fun t ht => ?_
        have hroomt := room_anti (f := f) fun x => (followedBy_of_follow ht).grows (x := x)
        refine (hfollow (by simp [Continuation.targets]) (by omega)).bind fun e he => ?_
        have hroome := room_anti (f := f) fun x => (followedBy_of_follow he).grows (x := x)
        cases hjoin : f.join? dom e.placed t.exit e.exit with
        | none => exact .inl ⟨_, rfl⟩
        | some join =>
          obtain ⟨x, y, htexit, -, hxy, hjoinable⟩ := join?_eq_some hjoin
          have hext := (followedBy_of_follow ht).extends hf hd hb hcont
            (by simp [Continuation.targets]) (IndexSet.has_insert.2 (.inl rfl))
          have hreach := hd.isReachable_of_mem (hext.exit x join htexit).2.1
          exact (ih hreach (joinable_spec hxy hjoinable).2.1 (by omega)).bind fun rest _ =>
            .inl ⟨_, rfl⟩

/-- The rounds settle as long as `fuel` covers the blocks that are not entries yet. -/
theorem buildGroups_settles (hf : f.Sound) (hd : dom.IsOf f) {past queue : List BlockId}
    {queued : OrderedSet BlockId} (hfuel : fuel + past.length = f.blocks.size + 1)
    (hp : Pending f dom past queue queued placed) :
    f.Settles dom (f.buildGroups dom fuel queue queued placed) := by
  induction fuel generalizing past queue queued placed with
  | zero =>
    have hle := hp.length_past_le hf hd
    omega
  | succ fuel ih =>
    cases queue with
    | nil => exact .inl ⟨[], rfl⟩
    | cons b queue =>
      have hb := hp.reachable b (by simp)
      have hfree := hp.free b (by simp)
      have hroom : (f.room placed).card ≤ f.blocks.size + 1 :=
        (f.card_room_le placed).trans (Nat.le_succ _)
      rw [buildGroups_cons]
      refine (chain_settles hf hd hb hfree hroom).bind fun c hc => ?_
      refine (ih ?_ (hp.step hd (chain_owns hf hd hb hfree hc))).bind fun rest _ => .inl ⟨_, rfl⟩
      rw [List.length_append, List.length_singleton]
      omega

theorem chain_continues {c : Chain} (h : f.chain dom fuel placed b = .ok c) :
    ∀ x ∈ c.region.blocks, ∃ k, f.continuation x = .ok k := by
  refine chain_induction (P := fun _ _ c => ∀ x ∈ c.region.blocks, ∃ k, f.continuation x = .ok k)
    (Q := fun _ _ _ c => ∀ x ∈ c.region.blocks, ∃ k, f.continuation x = .ok k)
    ?inline ?jump ?leave ?next ?join ?branch h
  case inline => exact fun _ _ hc => hc
  case jump => exact fun _ _ _ => nofun
  case leave => exact fun hcont => List.forall_mem_singleton.2 ⟨_, hcont⟩
  case next => exact fun hcont hrest => List.forall_mem_cons.2 ⟨⟨_, hcont⟩, hrest⟩
  case join =>
    intro _ _ _ _ _ _ _ _ _ _ hcont ht he _ _ hrest
    simp only [Region.blocks, List.forall_mem_cons, List.forall_mem_append]
    exact ⟨⟨_, hcont⟩, ⟨ht, he⟩, hrest⟩
  case branch =>
    intro _ _ _ _ _ _ _ hcont ht he
    simp only [Region.blocks, Region.blocks_close, List.append_nil, List.forall_mem_cons,
      List.forall_mem_append]
    exact ⟨⟨_, hcont⟩, ht, he⟩

end Func

namespace ControlTree

variable {f : Func} {dom : Dominance}

theorem ofFunc_settles (hf : f.Sound) (hd : dom.IsOf f) : f.Settles dom (ofFunc f dom) :=
  (Func.buildGroups_settles hf hd rfl (Func.pending_start hd)).bind fun _ _ => .inl ⟨_, rfl⟩

theorem ofFunc_continues {t : ControlTree} (hf : f.Sound) (hd : dom.IsOf f)
    (h : ofFunc f dom = .ok t) {b : BlockId} (hb : f.toFlowGraph.Reaches f.entry b) :
    ∃ k, f.continuation b = .ok k := by
  obtain ⟨groups, hgroups, -⟩ := bind_eq_ok.1 h
  have hg := Func.buildGroups_grouped hf hd rfl (Func.pending_start hd) hgroups
  obtain ⟨g, hmem, hin⟩ := hg.reached hb
  obtain ⟨fuel, placed, c, hc, hbody⟩ := hg.chain g hmem
  rw [hbody, Region.blocks_close] at hin
  exact Func.chain_continues hc b hin

end ControlTree

/-- What a construction of the control tree finds broken if a step of it goes wrong: its frames, a
branch without a condition, or a bound on its moves or rounds that does not hold. -/
def Fault.OfConstruction : Fault → Prop
  | .noFrame | .armWithoutBranch | .branchVanished | .frameLeftOpen => True
  | .branchesOnNothing _ | .endlessChain _ => True
  | _ => False

namespace Edit

variable {f : Func} {dom : Dominance}

theorem controlTree_apply (h : dominance.apply f = (.ok dom, { f with dominance := some dom })) :
    (controlTree.apply f).1 = ControlTree.ofFunc { f with dominance := some dom } dom := by
  rw [controlTree, apply_bind, h]
  rfl

theorem dominance_apply_of_ok (hf : f.Coherent) (h : (dominance.apply f).1 = .ok dom) :
    dominance.apply f = (.ok dom, { f with dominance := some dom }) ∧
      f.computeDominance f.dominanceLimit = .ok dom := by
  rcases dominance_yields hf with ⟨e, he⟩ | ⟨d, g, hrun, hcompute, rfl⟩
  · rw [he] at h
    cases h
  · rw [hrun] at h
    obtain rfl := Except.ok.inj h
    exact ⟨hrun, hcompute⟩

theorem controlTree_ok (hf : f.Built) (hv : (verify.apply f).1 = .ok ()) :
    ∃ t, (controlTree.apply f).1 = .ok t := by
  obtain ⟨d, hrun, ha⟩ := hf.accepted hv
  have hd := ha.verified.dominance
  rw [controlTree_apply hrun]
  refine (ControlTree.ofFunc_settles ha.sound hd).resolve_right ?_
  rintro ⟨b, e, hb, hcont, -⟩
  obtain ⟨data, hdata⟩ := ha.sound.linked.live_of_isReachable hd hb
  have hlive := Func.hasBlock_iff.2 ⟨data, hdata⟩
  exact (Func.continuation_error ha.sound ha.formed hlive hcont).1
    (Func.terminated_of_violations ha.sound.linked ha.clean hlive)

/-- The construction of a control tree comes to an end within its bounds. It succeeds exactly if
each reachable block ends in a terminator, and if it fails, the error names one that does not. -/
theorem controlTree_ok_iff_terminated (hf : f.Built) (hdom : (dominance.apply f).1 = .ok dom) :
    ((∃ t, (controlTree.apply f).1 = .ok t) ↔
      ∀ b, f.toFlowGraph.Reaches f.entry b → f.Terminated b) ∧
    (∀ e, (controlTree.apply f).1 = .error e → ∃ b, f.toFlowGraph.Reaches f.entry b ∧
      ¬ f.Terminated b ∧ e = .invariant (.noTerminator b) ∧
      e.message = b.text ++ " has no terminator") ∧
    ∀ fault : Fault, fault.OfConstruction →
      (controlTree.apply f).1 ≠ .error (.invariant fault) := by
  obtain ⟨hrun, hcompute⟩ := dominance_apply_of_ok hf.sound.coherent hdom
  have hd := (Func.computeDominance_isOf hcompute).cached
  have hsound := hf.sound.cached hcompute
  rw [controlTree_apply hrun]
  have hsettles := ControlTree.ofFunc_settles hsound hd
  have hfails : ∀ b e, dom.isReachable b = true →
      Func.continuation { f with dominance := some dom } b = .error e →
      f.toFlowGraph.Reaches f.entry b ∧ ¬ f.Terminated b ∧ e = .invariant (.noTerminator b) := by
    intro b e hb hcont
    obtain ⟨data, hdata⟩ := hsound.linked.live_of_isReachable hd hb
    have hlive := Func.hasBlock_iff.2 ⟨data, hdata⟩
    obtain ⟨hopen, rfl⟩ := Func.continuation_error hsound hf.formed hlive hcont
    exact ⟨hf.sound.linked.reaches_iff.2 (hd.isReachable_iff.1 hb), hopen, rfl⟩
  refine ⟨⟨fun ⟨t, ht⟩ b hb => ?_, fun hterm => hsettles.resolve_right ?_⟩, fun e he => ?_,
    fun fault hfault he => ?_⟩
  · obtain ⟨k, hk⟩ := ControlTree.ofFunc_continues hsound hd ht hb
    exact Func.terminated_of_continuation hk
  · rintro ⟨b, e, hb, hcont, -⟩
    obtain ⟨hreach, hnot, -⟩ := hfails b e hb hcont
    exact hnot (hterm b hreach)
  · rcases hsettles with ⟨t, ht⟩ | ⟨b, e', hb, hcont, he'⟩
    · cases ht.symm.trans he
    · obtain rfl := Except.error.inj (he'.symm.trans he)
      obtain ⟨hreach, hnot, rfl⟩ := hfails b e' hb hcont
      exact ⟨b, hreach, hnot, rfl, rfl⟩
  · rcases hsettles with ⟨t, ht⟩ | ⟨b, e', hb, hcont, he'⟩
    · cases ht.symm.trans he
    · obtain ⟨-, -, rfl⟩ := hfails b e' hb hcont
      cases Except.error.inj (he'.symm.trans he)
      exact hfault

/-- One arm of a branch has no end, and neither has a block that nothing leads to. -/
def looseEnd : List Call :=
  [.addArgument, .addBlock, .addBlock, .addBlock, .append ⟨0⟩ (.condBranch ⟨1⟩ ⟨2⟩) [⟨0⟩],
    .append ⟨1⟩ .ret []]

/-- Only the arm stands in the way of a control tree. -/
theorem looseEnd_controlTree :
    ∃ f g : Func, f.Built ∧ g.Built ∧
      (controlTree.apply f).1 = .error (.invariant (.noTerminator ⟨2⟩)) ∧
      f.toFlowGraph.Reaches f.entry ⟨2⟩ ∧ ¬ f.Terminated ⟨2⟩ ∧
      (∃ t, (controlTree.apply g).1 = .ok t) ∧
      (∀ b, g.toFlowGraph.Reaches g.entry b → g.Terminated b) := by
  let more : List Call := looseEnd ++ [.append ⟨2⟩ .ret []]
  let f : Func := looseEnd.foldl (fun f c => c.run f) (Func.new "f")
  let g : Func := more.foldl (fun f c => c.run f) (Func.new "f")
  have hf : f.Built := ⟨"f", looseEnd, rfl⟩
  have hg : g.Built := ⟨"f", more, rfl⟩
  obtain ⟨fdom, hfdom⟩ : ∃ d, (dominance.apply f).1 = .ok d := isOk_iff.1 (by decide +kernel)
  obtain ⟨gdom, hgdom⟩ : ∃ d, (dominance.apply g).1 = .ok d := isOk_iff.1 (by decide +kernel)
  obtain ⟨t, ht⟩ : ∃ t, (controlTree.apply g).1 = .ok t := isOk_iff.1 (by decide +kernel)
  have hfails : (controlTree.apply f).1.map (fun _ => ()) =
      .error (.invariant (.noTerminator ⟨2⟩)) := by decide +kernel
  have herror : (controlTree.apply f).1 = .error (.invariant (.noTerminator ⟨2⟩)) := by
    cases h : (controlTree.apply f).1 with
    | ok t =>
      rw [h] at hfails
      cases hfails
    | error e =>
      rw [h] at hfails
      exact congrArg _ (Except.error.inj hfails)
  obtain ⟨b, hreach, hnot, heq, -⟩ :=
    (controlTree_ok_iff_terminated hf hfdom).2.1 _ herror
  cases heq
  exact ⟨f, g, hf, hg, herror, hreach, hnot, ⟨t, ht⟩,
    (controlTree_ok_iff_terminated hg hgdom).1.1 ⟨t, ht⟩⟩

end Edit

end Midend
