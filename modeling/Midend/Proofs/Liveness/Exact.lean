import Midend.Proofs.Edit.Kinds
import Midend.Proofs.Func.Accepted
import Midend.Proofs.Liveness

/-!
Liveness is exact on paths. A block is live for a value if some path from it comes to a consumer
before it comes to the definition; an argument is defined before the entry, so a path may lead
through the entry again. Going back from the consumers finds these blocks and no others.
-/

namespace Midend

namespace Func

/-- A phi of a successor takes the value at the end of the block. -/
def Hands (f : Func) (v : ValueId) (b : BlockId) : Prop :=
  ∃ s ∈ f.successors b, ∃ e ∈ f.phisOf s, e.2.source b = some v

/-- An instruction of the block reads the value, or a phi of a successor takes it. -/
def Consumes (f : Func) (v : ValueId) (b : BlockId) : Prop :=
  (∃ e ∈ f.instsOf b, v ∈ e.2.operands) ∨ f.Hands v b

/-- The last consumer of a value in a block: an instruction with none that reads it behind, or else
a phi of a successor, or nothing. -/
inductive LastUse (f : Func) (v : ValueId) (b : BlockId) : Option User → Prop where
  | inst {pre post : List (InstId × Inst)} {e : InstId × Inst} : f.instsOf b = pre ++ e :: post →
      v ∈ e.2.operands → (∀ e' ∈ post, v ∉ e'.2.operands) → LastUse f v b (some (.inst e.1))
  | phi {s : BlockId} {e : PhiId × Phi} : (∀ e ∈ f.instsOf b, v ∉ e.2.operands) →
      s ∈ f.successors b → e ∈ f.phisOf s → e.2.source b = some v →
      LastUse f v b (some (.phi e.1))
  | none : ¬ f.Consumes v b → LastUse f v b none

variable {f : Func} {d : Dominance} {v : ValueId} {b c : BlockId}

theorem defBlock_eq_iff (hf : f.Sound) : f.defBlock v = .ok (some b) ↔
    (v ∈ f.arguments ∧ b = f.entry) ∨ f.DefinedIn v b := by
  constructor
  · intro hblock
    obtain ⟨val, hval, -⟩ := bind_eq_ok.1 hblock
    have hval := value_eq_ok.1 hval
    rcases defBlock_cases hval hblock with ⟨i, inst, hdef, hinst, rfl⟩ |
      ⟨p, phi, hdef, hphi, rfl⟩ | ⟨n, hdef, hentry⟩
    · exact .inr (.inst hval hdef hinst)
    · exact .inr (.phi hval hdef hphi)
    · exact .inl ⟨(hf.linked.argument_iff v).2 ⟨val, n, hval, hdef⟩, hentry⟩
  · rintro (⟨harg, rfl⟩ | h)
    · obtain ⟨val, n, hval, hdef⟩ := (hf.linked.argument_iff v).1 harg
      simp [defBlock, value_eq_ok.2 hval, hdef, bind, Except.bind, pure, Except.pure]
    · cases h with
      | inst hval hdef hinst =>
        simp [defBlock, value_eq_ok.2 hval, hdef, inst_eq_ok.2 hinst, bind, Except.bind, pure,
          Except.pure]
      | phi hval hdef hphi =>
        simp [defBlock, value_eq_ok.2 hval, hdef, phi_eq_ok.2 hphi, bind, Except.bind, pure,
          Except.pure]

theorem Verified.hands (hv : f.Verified d) (hc : d.isReachable c = true) {e : PhiId × Phi}
    (he : e ∈ f.phisOf c) (hsource : e.2.source b = some v) :
    d.isReachable b = true ∧ c ∈ f.successors b := by
  obtain ⟨data, hdata, hmem, hphi⟩ := mem_phisOf.1 he
  obtain ⟨hpred, hreach⟩ := (hv.keys c data e.1 e.2 b hc hdata hmem hphi).1 ⟨v, hsource⟩
  rw [predecessors, List.mem_filter, List.contains_iff_mem] at hpred
  exact ⟨hreach, hpred.2⟩

theorem Sound.successor_reachable (hf : f.Sound) (hd : d.IsOf f) (hb : d.isReachable b = true)
    (hc : c ∈ f.successors b) : b ∈ d.livePredecessors c ∧ d.isReachable c = true := by
  have hpred : b ∈ d.livePredecessors c := hd.mem_livePredecessors.2
    ⟨hf.linked.edge_of_successor hd (hd.isReachable_iff.1 hb) hc, hb⟩
  exact ⟨hpred, hd.isReachable_of_mem hpred⟩

end Func

/-- Going back finds only blocks with a property that passes to predecessors outside a set that is
there from the start. -/
theorem Dominance.spreadBack_sound {d : Dominance} (fixed found : BlockId → Prop)
    (hstep : ∀ b p, found b → p ∈ d.livePredecessors b → ¬ fixed p → found p) {fuel : Nat}
    {stack : List BlockId} {live : OrderedSet BlockId} (hfixed : ∀ b, fixed b → b ∈ live)
    (hstack : ∀ b ∈ stack, found b) :
    ∀ b ∈ d.spreadBack fuel stack live, b ∈ live ∨ found b := by
  induction fuel generalizing stack live with
  | zero => exact fun b hb => .inl hb
  | succ fuel ih =>
    cases stack with
    | nil => exact fun b hb => .inl hb
    | cons b stack =>
      obtain ⟨hb, hstack⟩ := List.forall_mem_cons.1 hstack
      have hnew : ∀ p ∈ (d.livePredecessors b).filter fun p => !live.contains p, found p := by
        intro p hp
        rw [List.mem_filter, Bool.not_eq_true', ← Bool.not_eq_true, OrderedSet.contains_iff_mem]
          at hp
        exact hstep b p hb hp.1 fun hfix => hp.2 (hfixed p hfix)
      intro x hx
      have hspread := ih (fun p hp => OrderedSet.mem_foldl_insert.2 (.inr (hfixed p hp)))
        (List.forall_mem_append.2 ⟨hnew, hstack⟩) x hx
      rw [OrderedSet.mem_foldl_insert] at hspread
      rcases hspread with (hx | hx) | hx
      · exact .inr (hnew x hx)
      · exact .inl hx
      · exact .inr hx

namespace Liveness

variable {f : Func} {d : Dominance} {l : Liveness} {v : ValueId} {b c home : BlockId}
  {r : LiveRange} {code : List BlockCode} {isArgument : Bool} {p : List BlockId}

/-- From each live block but the defining one a path leads to a consumer, and for a value that is no
argument it does not come to the definition. -/
theorem liveBlocksOf_sound (hd : d.IsOf f) (hb : b ∈ liveBlocksOf d code v home isArgument) :
    b = home ∨ ∃ c p, f.blockGraph.toFlowGraph.Path b c p ∧
      (isArgument = false → home ∉ p) ∧ c ∈ consumingBlocks d code v := by
  unfold liveBlocksOf at hb
  dsimp only at hb
  have hstart : ∀ x, x ∈ (if isArgument = true then ∅ else .ofList [home] : OrderedSet BlockId) ↔
      isArgument = false ∧ x = home := by
    intro x
    cases isArgument <;> simp [OrderedSet.notMem_empty]
  generalize (if isArgument = true then ∅ else .ofList [home] : OrderedSet BlockId) = start at *
  rcases OrderedSet.mem_insert.1 hb with rfl | hb
  · exact .inl rfl
  have hconsumers : ∀ x, x ∈ (consumingBlocks d code v).toList.filter
      (fun b => !start.contains b) → x ∈ consumingBlocks d code v ∧ x ∉ start := by
    intro x hx
    rwa [List.mem_filter, OrderedSet.mem_toList, Bool.not_eq_true', ← Bool.not_eq_true,
      OrderedSet.contains_iff_mem] at hx
  have hstack : ∀ x ∈ (consumingBlocks d code v).toList.filter (fun b => !start.contains b),
      ∃ c p, f.blockGraph.toFlowGraph.Path x c p ∧ (isArgument = false → home ∉ p) ∧
        c ∈ consumingBlocks d code v := by
    intro x hx
    obtain ⟨hx, hout⟩ := hconsumers x hx
    refine ⟨x, [x], .start, fun harg hmem => hout ((hstart x).2 ⟨harg, ?_⟩), hx⟩
    exact (List.mem_singleton.1 hmem).symm
  -- Going back along one edge makes the path longer by a node that is not the definition.
  refine (Dominance.spreadBack_sound (· ∈ start) _ ?_ ?_ hstack b hb).elim ?_ .inr
  · rintro x q ⟨c, p, hp, hhome, hc⟩ hq hout
    have hstep : f.blockGraph.toFlowGraph.Path q x [q, x] :=
      .step .start (hd.mem_livePredecessors.1 hq).1
    refine ⟨c, _, hstep.append hp, fun harg => ?_, hc⟩
    refine FlowGraph.Path.notMem_append_tail (fun hmem => ?_) (hhome harg)
    rcases List.mem_pair.1 hmem with rfl | rfl
    · exact hout ((hstart _).2 ⟨harg, rfl⟩)
    · exact hhome harg hp.start_mem
  · exact fun x hx => OrderedSet.mem_foldl_insert.2 (.inr hx)
  · intro hlive
    rcases OrderedSet.mem_foldl_insert.1 hlive with hx | hx
    · exact .inr (hstack b hx)
    · exact .inl ((hstart b).1 hx).2

namespace IsOf

theorem mem_consumingBlocks_iff (hl : l.IsOf f d) (hf : f.Sound) (hv : f.Verified d) :
    b ∈ consumingBlocks d l.code v ↔ d.isReachable b = true ∧ f.Consumes v b := by
  have hd := hv.dominance
  constructor
  · intro hb
    obtain ⟨code, hcode, ⟨htaken, hreach⟩ | ⟨hreads, rfl⟩⟩ := mem_consumingBlocks.1 hb
    · obtain ⟨c, hc, rfl⟩ := (hl.mem_code hd).1 hcode
      obtain ⟨e, he, hmem⟩ := List.mem_flatMap.1 htaken
      obtain ⟨s, hs, rfl⟩ := List.mem_map.1 hmem
      obtain ⟨hs, hsv⟩ := List.mem_filter.1 hs
      have hsource : e.2.source s.1 = some v := by
        rw [← of_decide_eq_true hsv]
        exact OrderedMap.mem_toList.1 hs
      exact ⟨hreach, .inr ⟨c, (hv.hands hc he hsource).2, e, he, hsource⟩⟩
    · obtain ⟨c, hc, rfl⟩ := (hl.mem_code hd).1 hcode
      obtain ⟨e, he, hmem⟩ := List.any_eq_true.1 hreads
      exact ⟨hc, .inl ⟨e, he, List.contains_iff_mem.1 hmem⟩⟩
  · rintro ⟨hb, ⟨e, he, hmem⟩ | ⟨s, hs, e, he, hsource⟩⟩
    · exact hl.consumes_operand hd hb he hmem
    · exact (hl.consumes_source hd (hf.successor_reachable hd hb hs).2 hb he hsource).1

theorem feedsPhi_iff (hl : l.IsOf f d) (hf : f.Sound) (hv : f.Verified d)
    (hb : d.isReachable b = true) : l.feedsPhi v b = true ↔ f.Hands v b := by
  have hd := hv.dominance
  constructor
  · intro hfeeds
    obtain ⟨code, hcode, htaker⟩ := List.any_eq_true.1 hfeeds
    obtain ⟨c, hc, rfl⟩ := (hl.mem_code hd).1 hcode
    rw [BlockCode.taker, Option.isSome_map, List.find?_isSome] at htaker
    obtain ⟨e, he, hsource⟩ := htaker
    have hsource := of_decide_eq_true hsource
    exact ⟨c, (hv.hands hc he hsource).2, e, he, hsource⟩
  · rintro ⟨s, hs, e, he, hsource⟩
    exact (hl.consumes_source hd (hf.successor_reachable hd hb hs).2 hb he hsource).2

/-- Along a path to a live block all blocks are live, as long as it does not come to the
definition; that of an argument which is consumed does not count. -/
theorem mem_blocks_of_path (hl : l.IsOf f d) (hf : f.Sound) (hd : d.IsOf f)
    (hr : l.ranges.get? v = some r) (hb : d.isReachable b = true)
    (hp : f.blockGraph.toFlowGraph.Path b c p) (hc : c ∈ r.blocks)
    (hhome : (r.isArgument = true ∧ l.Consumed v) ∨ r.home ∉ p) : b ∈ r.blocks := by
  induction hp with
  | start => exact hc
  | @step y z q hq hz ih =>
    have hreach : d.isReachable y = true := hd.isReachable_of_path hb hq
    -- The live blocks are closed under live predecessors, except at the definition.
    have hpreds := ((hl.blocks_spec hf hd hr).2.2 z hc).resolve_left (by
      rintro ⟨rfl, hnone⟩
      rcases hhome with ⟨harg, hcons⟩ | hout
      · exact hnone harg hcons
      · exact hout (by simp))
    refine ih (hpreds y (hd.mem_livePredecessors.2 ⟨hz, hreach⟩)) ?_
    exact hhome.imp_right fun hout hmem => hout (List.mem_append_left _ hmem)

theorem mem_blocks_iff (hl : l.IsOf f d) (hf : f.Sound) (hv : f.Verified d)
    (hr : l.ranges.get? v = some r) (hcons : r.isArgument = true → l.Consumed v)
    (hb : d.isReachable b = true) :
    b ∈ r.blocks ↔ b = r.home ∨ ∃ c p, f.toFlowGraph.Path b c p ∧
      (r.isArgument = false → r.home ∉ p) ∧ f.Consumes v c := by
  have hd := hv.dominance
  have hlive : f.hasBlock b = true := Func.hasBlock_iff.2 (hf.linked.live_of_isReachable hd hb)
  constructor
  · intro hmem
    rw [((hl.range v r).1 hr).2] at hmem
    refine (liveBlocksOf_sound hd hmem).imp_right ?_
    rintro ⟨c, p, hp, hhome, hc⟩
    exact ⟨c, p, (hf.linked.path_iff_of_live hlive).2 hp, hhome,
      ((hl.mem_consumingBlocks_iff hf hv).1 hc).2⟩
  · rintro (rfl | ⟨c, p, hp, hhome, hc⟩)
    · exact (hl.blocks_spec hf hd hr).1
    · have hp := (hf.linked.path_iff_of_live hlive).1 hp
      have hmem := (hl.blocks_spec hf hd hr).2.1 c
        ((hl.mem_consumingBlocks_iff hf hv).2 ⟨hd.isReachable_of_path hb hp, hc⟩)
      refine hl.mem_blocks_of_path hf hd hr hb hp hmem ?_
      cases harg : r.isArgument with
      | true => exact .inl ⟨rfl, hcons harg⟩
      | false => exact .inr (hhome harg)

/-- The candidates are the ordinary values among the arguments and the results of reachable
instructions and phis. -/
theorem isCandidate_iff_defined (hl : l.IsOf f d) (hf : f.Sound) (hd : d.IsOf f) :
    l.isCandidate v = true ↔ (∃ val, f.values.get? v = some val ∧ val.kind = .value) ∧
      (v ∈ f.arguments ∨ ∃ b, f.DefinedIn v b ∧ d.isReachable b = true) := by
  rw [hl.isCandidate_iff]
  constructor
  · rintro ⟨home, isArgument, val, hval, hkind, hblock, hreach, -⟩
    refine ⟨⟨val, hval, hkind⟩, ?_⟩
    exact ((Func.defBlock_eq_iff hf).1 hblock).imp (·.1) fun hdef => ⟨home, hdef, hreach⟩
  · rintro ⟨⟨val, hval, hkind⟩, hdef⟩
    obtain ⟨home, hblock, hreach⟩ : ∃ home, f.defBlock v = .ok (some home) ∧
        d.isReachable home = true := by
      rcases hdef with harg | ⟨b, hb, hreach⟩
      · exact ⟨f.entry, (Func.defBlock_eq_iff hf).2 (.inl ⟨harg, rfl⟩), hd.entry_isReachable⟩
      · exact ⟨b, (Func.defBlock_eq_iff hf).2 (.inr hb), hreach⟩
    classical
    exact ⟨home, decide (∃ n, val.definition = .argument n), val, hval, hkind, hblock, hreach,
      decide_eq_true_iff⟩

theorem argument_isCandidate (hl : l.IsOf f d) (hf : f.Sound) (hplain : f.Plain) (hd : d.IsOf f)
    (hv : v ∈ f.arguments) : l.isCandidate v = true := by
  obtain ⟨val, n, hval, hdef⟩ := (hf.linked.argument_iff v).1 hv
  exact (hl.isCandidate_iff_defined hf hd).2
    ⟨⟨val, hval, (hplain v val hval).argument n hdef⟩, .inl hv⟩

theorem home_spec (hl : l.IsOf f d) (hf : f.Sound) (hr : l.ranges.get? v = some r) :
    (v ∈ f.arguments ∧ r.isArgument = true ∧ r.home = f.entry) ∨
      (v ∉ f.arguments ∧ r.isArgument = false ∧ f.DefinedIn v r.home) := by
  have hiff := hl.isArgument_iff hf hr
  cases harg : r.isArgument with
  | true => exact .inl ⟨hiff.1 harg, rfl, hl.home_eq_entry hr harg⟩
  | false =>
    have hnot : v ∉ f.arguments := fun hmem => by simp [hiff.2 hmem] at harg
    obtain ⟨⟨-, -, -, hblock, -⟩, -⟩ := (hl.range v r).1 hr
    exact .inr ⟨hnot, rfl, ((Func.defBlock_eq_iff hf).1 hblock).resolve_left (hnot ·.1)⟩

theorem lastUse_spec (hl : l.IsOf f d) (hf : f.Sound) (hv : f.Verified d)
    (hc : l.isCandidate v = true) (hb : d.isReachable b = true) :
    f.LastUse v b (l.lastUse v b) := by
  have hd := hv.dominance
  have hif : (l.isCandidate v && l.dom.isReachable b) = true := by simp [hc, hl.dom, hb]
  rw [lastUse, if_pos hif, hl.find?_code hd hb, Option.bind_some]
  -- A reader in the block comes before any phi of a successor.
  cases hreader : (f.codeAt b).lastReader v with
  | some i =>
    obtain ⟨e, he, rfl⟩ := Option.map_eq_some_iff.1 hreader
    obtain ⟨hread, post, pre, hrev, hnone⟩ := List.find?_eq_some_iff_append.1 he
    have hsplit : f.instsOf b = pre.reverse ++ e :: post.reverse := by
      have := congrArg List.reverse hrev
      simpa [Func.codeAt] using this
    refine .inst hsplit (List.contains_iff_mem.1 hread) fun e' he' hmem => ?_
    have := hnone e' (List.mem_reverse.1 he')
    simp [hmem] at this
  | none =>
    have hunread : ∀ e ∈ f.instsOf b, v ∉ e.2.operands := by
      intro e he hmem
      have := List.find?_eq_none.1 (Option.map_eq_none_iff.1 hreader) e (List.mem_reverse.2 he)
      simp [hmem] at this
    dsimp only
    cases htaker : l.code.findSome? fun c => c.taker v b with
    | some p =>
      obtain ⟨code, hcode, hp⟩ := List.exists_of_findSome?_eq_some htaker
      obtain ⟨c, hc, rfl⟩ := (hl.mem_code hd).1 hcode
      obtain ⟨e, he, rfl⟩ := Option.map_eq_some_iff.1 hp
      have hfound := List.find?_some he
      have hsource : e.2.source b = some v := of_decide_eq_true hfound
      have he : e ∈ f.phisOf c := List.mem_of_find?_eq_some he
      exact .phi hunread (hv.hands hc he hsource).2 he hsource
    | none =>
      refine .none ?_
      rintro (⟨e, he, hmem⟩ | ⟨s, hs, e, he, hsource⟩)
      · exact hunread e he hmem
      · have hcode := (hl.mem_code hd).2 ⟨s, (hf.successor_reachable hd hb hs).2, rfl⟩
        have hnone := List.findSome?_eq_none_iff.1 htaker _ hcode
        have := List.find?_eq_none.1 (Option.map_eq_none_iff.1 hnone) e he
        simp [hsource] at this

theorem isLiveIn_iff_path (hl : l.IsOf f d) (hf : f.Sound) (hv : f.Verified d)
    (hr : l.ranges.get? v = some r) (harg : r.isArgument = false) (hb : d.isReachable b = true) :
    l.isLiveIn v b = true ↔
      b ≠ r.home ∧ ∃ c p, f.toFlowGraph.Path b c p ∧ r.home ∉ p ∧ f.Consumes v c := by
  have hblocks := hl.mem_blocks_iff hf hv hr (by simp [harg]) hb
  rw [hl.isLiveIn_iff hv.dominance]
  constructor
  · rintro ⟨r', hr', hmem, hhome⟩
    obtain rfl := Option.some.inj (hr.symm.trans hr')
    have hne : b ≠ r.home := Ne.symm (hhome.resolve_right (by simp [harg]))
    obtain ⟨c, p, hp, hout, hc⟩ := (hblocks.1 hmem).resolve_left hne
    exact ⟨hne, c, p, hp, hout harg, hc⟩
  · rintro ⟨hne, c, p, hp, hout, hc⟩
    exact ⟨r, hr, hblocks.2 (.inr ⟨c, p, hp, fun _ => hout, hc⟩), .inl hne.symm⟩

theorem isLiveOut_iff_successor (hl : l.IsOf f d) (hf : f.Sound) (hv : f.Verified d)
    (hr : l.ranges.get? v = some r) (harg : r.isArgument = false) (hb : d.isReachable b = true) :
    l.isLiveOut v b = true ↔ f.Hands v b ∨ ∃ s ∈ f.successors b, l.isLiveIn v s = true := by
  have hd := hv.dominance
  rw [hl.isLiveOut_iff hd, hl.feedsPhi_iff hf hv hb]
  constructor
  · rintro ⟨-, hhands | ⟨s, hs, hin⟩⟩
    · exact .inl hhands
    · exact .inr ⟨s, (Func.mem_blockGraph_successorsOf.1 hs).2.2, hin⟩
  · rintro (hhands | ⟨s, hs, hin⟩)
    · refine ⟨isLiveInBlock_iff.2 ⟨r, hr, ?_⟩, .inl hhands⟩
      exact (hl.blocks_spec hf hd hr).2.1 b ((hl.mem_consumingBlocks_iff hf hv).2 ⟨hb, .inr hhands⟩)
    · obtain ⟨hpred, -⟩ := hf.successor_reachable hd hb hs
      obtain ⟨r', hr', hmem, hhome⟩ := (hl.isLiveIn_iff hd).1 hin
      obtain rfl := Option.some.inj (hr.symm.trans hr')
      have hpreds := ((hl.blocks_spec hf hd hr).2.2 s hmem).resolve_left fun heq =>
        hhome.elim (fun hne => hne heq.1.symm) (by simp [harg])
      exact ⟨isLiveInBlock_iff.2 ⟨r, hr, hpreds b hpred⟩,
        .inr ⟨s, (hd.mem_livePredecessors.1 hpred).1, hin⟩⟩

theorem argument_isLiveIn_iff (hl : l.IsOf f d) (hf : f.Sound) (hv : f.Verified d)
    (hr : l.ranges.get? v = some r) (harg : r.isArgument = true) (hhome : r.home = f.entry)
    (hcons : l.Consumed v) :
    (∀ b, d.isReachable b = true → b ≠ f.entry →
      (l.isLiveIn v b = true ↔ ∃ c p, f.toFlowGraph.Path b c p ∧ f.Consumes v c)) ∧
    (l.isLiveIn v f.entry = true ↔ ∃ p, p ∈ d.livePredecessors f.entry) := by
  have hd := hv.dominance
  refine ⟨fun b hb hne => ?_, fun hin => ?_, fun ⟨p, hp⟩ => ?_⟩
  · have hblocks := hl.mem_blocks_iff hf hv hr (fun _ => hcons) hb
    rw [hl.isLiveIn_iff hd]
    constructor
    · rintro ⟨r', hr', hmem, -⟩
      obtain rfl := Option.some.inj (hr.symm.trans hr')
      obtain ⟨c, p, hp, -, hc⟩ := (hblocks.1 hmem).resolve_left fun heq => hne (heq.trans hhome)
      exact ⟨c, p, hp, hc⟩
    · rintro ⟨c, p, hp, hc⟩
      exact ⟨r, hr, hblocks.2 (.inr ⟨c, p, hp, by simp [harg], hc⟩),
        .inl fun heq => hne (heq.symm.trans hhome)⟩
  · obtain ⟨r', hr', -, hne | ⟨-, p, hp, -⟩⟩ := (hl.isLiveIn_iff hd).1 hin
    · obtain rfl := Option.some.inj (hr.symm.trans hr')
      exact absurd hhome hne
    · exact ⟨p, hp⟩
  · exact hl.liveIn_entry hf hd hcons hr harg hhome hp

end IsOf

end Liveness

/-- The liveness of a verified function says exactly what its paths say, for the ordinary values
among the arguments and the reachable results. A value is live on entry to a block if some path from
there comes to a consumer and not to the definition; an argument is defined before the entry, so for
it every path counts. -/
theorem Edit.liveness_exact (f : Func) (hf : f.Built) (hv : (Edit.verify.apply f).1 = .ok ()) :
    ∃ l, (Edit.liveness.apply f).1 = .ok l ∧
      (∀ v, l.isCandidate v = true ↔ (∃ val, f.values.get? v = some val ∧ val.kind = .value) ∧
        (v ∈ f.arguments ∨ ∃ home, f.DefinedIn v home ∧ f.toFlowGraph.Reaches f.entry home)) ∧
      (∀ v, l.isCandidate v = true → v ∉ f.arguments → ∃ home, f.DefinedIn v home ∧
        ∀ b, f.toFlowGraph.Reaches f.entry b →
          (l.isLiveIn v b = true ↔
            b ≠ home ∧ ∃ c p, f.toFlowGraph.Path b c p ∧ home ∉ p ∧ f.Consumes v c) ∧
          (l.isLiveOut v b = true ↔
            f.Hands v b ∨ ∃ s ∈ f.successors b, l.isLiveIn v s = true)) ∧
      (∀ v ∈ f.arguments, (∃ c, f.toFlowGraph.Reaches f.entry c ∧ f.Consumes v c) →
        (∀ b, f.toFlowGraph.Reaches f.entry b → b ≠ f.entry →
          (l.isLiveIn v b = true ↔ ∃ c p, f.toFlowGraph.Path b c p ∧ f.Consumes v c)) ∧
        (l.isLiveIn v f.entry = true ↔
          ∃ p, f.toFlowGraph.Reaches f.entry p ∧ f.entry ∈ f.successors p)) ∧
      ∀ v b, l.isCandidate v = true → f.toFlowGraph.Reaches f.entry b →
        f.LastUse v b (l.lastUse v b) := by
  have hs := hf.sound
  obtain ⟨d, l, hverified, hl, hrun⟩ := liveness_ok hs hv
  have hd := hverified.dominance
  have hreach : ∀ b, f.toFlowGraph.Reaches f.entry b ↔ d.isReachable b = true := fun b =>
    hs.linked.reaches_iff.trans hd.isReachable_iff.symm
  simp only [hreach]
  refine ⟨l, by rw [hrun], fun v => hl.isCandidate_iff_defined hs hd, fun v hc hout => ?_,
    fun v harg hcons => ?_, fun v b hc hb => hl.lastUse_spec hs hverified hc hb⟩
  · obtain ⟨r, hr⟩ := Option.isSome_iff_exists.1 hc
    obtain ⟨harg, -⟩ | ⟨-, hfalse, hdef⟩ := hl.home_spec hs hr
    · exact absurd harg hout
    · exact ⟨r.home, hdef, fun b hb => ⟨hl.isLiveIn_iff_path hs hverified hr hfalse hb,
        hl.isLiveOut_iff_successor hs hverified hr hfalse hb⟩⟩
  · obtain ⟨r, hr⟩ := Option.isSome_iff_exists.1 (hl.argument_isCandidate hs hf.plain hd harg)
    obtain ⟨-, htrue, hhome⟩ := (hl.home_spec hs hr).resolve_right (·.1 harg)
    obtain ⟨c, hc⟩ := hcons
    have hconsumed : l.Consumed v := by
      refine ⟨c, ?_⟩
      rw [hl.dom]
      exact (hl.mem_consumingBlocks_iff hs hverified).2 hc
    obtain ⟨hblocks, hentry⟩ := hl.argument_isLiveIn_iff hs hverified hr htrue hhome hconsumed
    refine ⟨hblocks, hentry.trans (exists_congr fun p => ?_)⟩
    constructor
    · intro hp
      obtain ⟨hedge, hpr⟩ := hd.mem_livePredecessors.1 hp
      exact ⟨hpr, (Func.mem_blockGraph_successorsOf.1 hedge).2.2⟩
    · exact fun ⟨hpr, hsucc⟩ => (hs.successor_reachable hd hpr hsucc).1

/-- A loop through the entry, which adds the argument to itself; behind it the sum is returned. -/
def addingLoop : List Call :=
  [.addArgument, .addBlock, .addBlock, .appendValue ⟨0⟩ (.binary .add) [⟨0⟩, ⟨0⟩],
    .append ⟨0⟩ (.condBranch ⟨1⟩ ⟨2⟩) [⟨1⟩], .append ⟨1⟩ (.branch ⟨0⟩) [], .append ⟨2⟩ .ret [⟨1⟩]]

/-- On the way back the argument is live and the sum is not: what is read next is the next sum. -/
theorem addingLoop_liveness :
    ∃ f l, f.Built ∧ (Edit.verify.apply f).1 = .ok () ∧ (Edit.liveness.apply f).1 = .ok l ∧
      l.isCandidate ⟨0⟩ = true ∧ l.isCandidate ⟨1⟩ = true ∧
      l.isLiveIn ⟨0⟩ ⟨1⟩ = true ∧ l.isLiveIn ⟨0⟩ f.entry = true ∧
      (∃ c p, f.toFlowGraph.Path ⟨1⟩ c p ∧ f.Consumes ⟨0⟩ c) ∧
      f.DefinedIn ⟨1⟩ f.entry ∧ l.isLiveIn ⟨1⟩ ⟨1⟩ = false ∧
      ¬ ∃ c p, f.toFlowGraph.Path ⟨1⟩ c p ∧ f.entry ∉ p ∧ f.Consumes ⟨1⟩ c := by
  let f : Func := addingLoop.foldl (fun f c => c.run f) (Func.new "f")
  have hf : f.Built := ⟨"f", addingLoop, rfl⟩
  have hv : (Edit.verify.apply f).1 = .ok () := by decide +kernel
  have hlive : ((Edit.liveness.apply f).1.toOption.map fun l =>
      (l.isLiveIn ⟨0⟩ ⟨1⟩, l.isLiveIn ⟨0⟩ f.entry, l.isLiveIn ⟨1⟩ ⟨1⟩)) =
      some (true, true, false) := by decide +kernel
  have hsucc : (⟨1⟩ : BlockId) ∈ f.successors f.entry := by decide +kernel
  have hentry : f.entry ≠ ⟨1⟩ := by decide +kernel
  have harguments : f.arguments = [⟨0⟩] := by decide +kernel
  have hreads : ∃ e ∈ f.instsOf f.entry, (⟨0⟩ : ValueId) ∈ e.2.operands := by decide +kernel
  have hordinary : (f.values.get? ⟨0⟩).map (·.kind) = some .value := by decide +kernel
  have hsum : (f.values.get? ⟨1⟩).map (fun val => (val.definition, val.kind)) =
      some (.inst ⟨0⟩, .value) := by decide +kernel
  have hadd : (f.insts.get? ⟨0⟩).map (·.block) = some f.entry := by decide +kernel
  clear_value f
  obtain ⟨val, hval, hdef⟩ := Option.map_eq_some_iff.1 hsum
  obtain ⟨hdef, hkind⟩ := Prod.mk.inj hdef
  obtain ⟨inst, hinst, hblock⟩ := Option.map_eq_some_iff.1 hadd
  have hreach : f.toFlowGraph.Reaches f.entry ⟨1⟩ := (FlowGraph.Reaches.refl f.entry).step hsucc
  obtain ⟨l, hl, hcandidate, hvalue, hargument, -⟩ := Edit.liveness_exact f hf hv
  have hargCandidate : l.isCandidate ⟨0⟩ = true :=
    (hcandidate ⟨0⟩).2 ⟨Option.map_eq_some_iff.1 hordinary, .inl (by simp [harguments])⟩
  have hsumDefined : f.DefinedIn ⟨1⟩ f.entry :=
    (Func.definedIn_of_inst hval hdef hinst).2 hblock
  have hsumCandidate : l.isCandidate ⟨1⟩ = true :=
    (hcandidate ⟨1⟩).2 ⟨⟨val, hval, hkind⟩, .inr ⟨f.entry, hsumDefined, .refl f.entry⟩⟩
  rw [hl] at hlive
  obtain ⟨hback, hlive⟩ := Prod.mk.inj (Option.some.inj hlive)
  obtain ⟨haround, hnot⟩ := Prod.mk.inj hlive
  obtain ⟨hpath, -⟩ := hargument ⟨0⟩ (by simp [harguments]) ⟨_, .refl f.entry, .inl hreads⟩
  obtain ⟨home, hhome, hblocks⟩ := hvalue ⟨1⟩ hsumCandidate (by simp [harguments])
  obtain rfl : home = f.entry :=
    ((Func.definedIn_of_inst hval hdef hinst).1 hhome).symm.trans hblock
  refine ⟨f, l, hf, hv, hl, hargCandidate, hsumCandidate, hback, haround,
    (hpath ⟨1⟩ hreach hentry.symm).1 hback, hsumDefined, hnot, fun hpath => ?_⟩
  have hin := (hblocks ⟨1⟩ hreach).1.2 ⟨hentry.symm, hpath⟩
  rw [hnot] at hin
  cases hin

end Midend
