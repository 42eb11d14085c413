import Midend.Liveness
import Midend.Proofs.Execution
import Midend.Proofs.Func.Verified

namespace Midend

namespace Dominance

variable {f : Func} {d : Dominance} {fuel : Nat} {past stack : List BlockId}
  {live : OrderedSet BlockId} {fixed : BlockId → Prop}

/-- Between two rounds: `past` are the blocks worked off. -/
structure Spreading (d : Dominance) (fixed : BlockId → Prop) (past stack : List BlockId)
    (live : OrderedSet BlockId) : Prop where
  nodup : (past ++ stack).Nodup
  reachable : ∀ b ∈ past ++ stack, d.isReachable b = true
  mem_live : ∀ b ∈ past ++ stack, b ∈ live
  closed : ∀ b ∈ live, b ∈ stack ∨ fixed b ∨ ∀ p ∈ d.livePredecessors b, p ∈ live

theorem Spreading.step (hd : d.IsOf f) {b : BlockId}
    (h : Spreading d fixed past (b :: stack) live) :
    Spreading d fixed (past ++ [b])
      ((d.livePredecessors b).filter (fun p => !live.contains p) ++ stack)
      (((d.livePredecessors b).filter fun p => !live.contains p).foldl OrderedSet.insert live) := by
  have hnew : ∀ p, p ∈ (d.livePredecessors b).filter (fun p => !live.contains p) ↔
      p ∈ d.livePredecessors b ∧ p ∉ live := by
    intro p
    rw [List.mem_filter, Bool.not_eq_true', ← Bool.not_eq_true, OrderedSet.contains_iff_mem]
  generalize hn : (d.livePredecessors b).filter (fun p => !live.contains p) = new at *
  have hnd : new.Nodup := hn ▸ (hd.livePredecessors_nodup b).filter _
  have hperm : (past ++ [b] ++ (new ++ stack)).Perm (new ++ (past ++ b :: stack)) := by
    have : past ++ [b] ++ (new ++ stack) = (past ++ [b]) ++ new ++ stack := by simp
    rw [this]
    refine (List.perm_append_comm.append_right stack).trans ?_
    simp
  refine ⟨?_, fun p hp => ?_, fun p hp => ?_, fun p hp => ?_⟩
  · rw [hperm.nodup_iff, List.nodup_append]
    refine ⟨hnd, h.nodup, ?_⟩
    rintro p hp q hq rfl
    exact ((hnew p).1 hp).2 (h.mem_live p hq)
  · rcases List.mem_append.1 (hperm.mem_iff.1 hp) with hp | hp
    · exact (hd.mem_livePredecessors.1 ((hnew p).1 hp).1).2
    · exact h.reachable p hp
  · rw [OrderedSet.mem_foldl_insert]
    rcases List.mem_append.1 (hperm.mem_iff.1 hp) with hp | hp
    · exact .inl hp
    · exact .inr (h.mem_live p hp)
  · rw [OrderedSet.mem_foldl_insert] at hp
    rcases hp with hp | hp
    · exact .inl (List.mem_append_left _ hp)
    · rcases h.closed p hp with hstack | hfixed | hpreds
      · rcases List.mem_cons.1 hstack with rfl | hstack
        · refine .inr (.inr fun q hq => ?_)
          rw [OrderedSet.mem_foldl_insert, hnew]
          by_cases hlive : q ∈ live
          · exact .inr hlive
          · exact .inl ⟨hq, hlive⟩
        · exact .inl (List.mem_append_right _ hstack)
      · exact .inr (.inl hfixed)
      · refine .inr (.inr fun q hq => ?_)
        rw [OrderedSet.mem_foldl_insert]
        exact .inr (hpreds q hq)

/-- Each round takes a block that was not taken before, so `fuel` is enough as long as it covers the
blocks that are left. -/
theorem spreadBack_closed (hf : f.Sound) (hd : d.IsOf f)
    (hfuel : d.graph.size < fuel + past.length) (h : Spreading d fixed past stack live) :
    (∀ b ∈ live, b ∈ d.spreadBack fuel stack live) ∧
      ∀ b ∈ d.spreadBack fuel stack live,
        fixed b ∨ ∀ p ∈ d.livePredecessors b, p ∈ d.spreadBack fuel stack live := by
  induction fuel generalizing past stack live with
  | zero =>
    have hpast : past.Nodup := (List.nodup_append.1 h.nodup).1
    have hle : past.length ≤ f.blocks.size := FlowGraph.length_le_of_index_lt hpast fun x hx =>
      hf.linked.index_lt hd (h.reachable x (List.mem_append_left _ hx))
    rw [hd.graph, Func.blockGraph_size] at hfuel
    omega
  | succ fuel ih =>
    cases stack with
    | nil => exact ⟨fun b hb => hb, fun b hb => (h.closed b hb).resolve_left (by simp)⟩
    | cons b stack =>
      have hlen : d.graph.size < fuel + (past ++ [b]).length := by
        simp only [List.length_append, List.length_singleton]
        omega
      obtain ⟨hsub, hclosed⟩ := ih hlen (h.step hd)
      refine ⟨fun c hc => hsub c ?_, hclosed⟩
      rw [OrderedSet.mem_foldl_insert]
      exact .inr hc

end Dominance

namespace Liveness

variable {f : Func} {d : Dominance} {code : List BlockCode} {v : ValueId} {b home : BlockId}
  {isArgument : Bool}

theorem mem_consumingBlocks :
    b ∈ consumingBlocks d code v ↔ ∃ c ∈ code,
      (b ∈ c.takenFrom v ∧ d.isReachable b = true) ∨ (c.reads v = true ∧ b = c.block) := by
  simp only [consumingBlocks, OrderedSet.mem_ofList, List.mem_flatMap, List.mem_append,
    List.mem_filter]
  refine exists_congr fun c => and_congr_right fun _ => or_congr_right ?_
  split <;> simp [*]

theorem isReachable_of_mem_consumingBlocks (hcode : ∀ c ∈ code, d.isReachable c.block = true)
    (h : b ∈ consumingBlocks d code v) : d.isReachable b = true := by
  obtain ⟨c, hc, ⟨-, hr⟩ | ⟨-, rfl⟩⟩ := mem_consumingBlocks.1 h
  · exact hr
  · exact hcode c hc

theorem entry_mem_of_closed (hd : d.IsOf f) {s : OrderedSet BlockId}
    (hs : ∀ b ∈ s, ∀ p ∈ d.livePredecessors b, p ∈ s) (hb : b ∈ s)
    (hr : d.isReachable b = true) : f.entry ∈ s := by
  obtain ⟨path, hpath⟩ := hd.isReachable_iff.1 hr
  induction hpath with
  | start => exact hb
  | @step b c path hpath hc ih =>
    have hreach : d.isReachable b = true := hd.isReachable_iff.2 ⟨path, hpath⟩
    exact ih (hs c hb b (hd.mem_livePredecessors.2 ⟨hc, hreach⟩)) hreach

/-- The live blocks of a value. Only the defining block may have predecessors outside, and that of
an argument only if nothing consumes it. -/
theorem liveBlocksOf_spec (v : ValueId) (hf : f.Sound) (hd : d.IsOf f)
    (hcode : ∀ c ∈ code, d.isReachable c.block = true)
    (hhome : isArgument = true → home = f.entry) :
    home ∈ liveBlocksOf d code v home isArgument ∧
      (∀ b ∈ consumingBlocks d code v, b ∈ liveBlocksOf d code v home isArgument) ∧
      ∀ b ∈ liveBlocksOf d code v home isArgument,
        (b = home ∧ (isArgument = true → ∀ c, c ∉ consumingBlocks d code v)) ∨
          ∀ p ∈ d.livePredecessors b, p ∈ liveBlocksOf d code v home isArgument := by
  unfold liveBlocksOf
  generalize hstart : (if isArgument = true then ∅ else .ofList [home] : OrderedSet BlockId) = start
  have hmem : ∀ b, b ∈ (consumingBlocks d code v).toList.filter (fun b => !start.contains b) ↔
      b ∈ consumingBlocks d code v ∧ b ∉ start := by
    intro b
    rw [List.mem_filter, OrderedSet.mem_toList, Bool.not_eq_true', ← Bool.not_eq_true,
      OrderedSet.contains_iff_mem]
  have hnd : ((consumingBlocks d code v).toList.filter fun b => !start.contains b).Nodup :=
    (OrderedSet.toList_nodup _).filter _
  dsimp only
  generalize (consumingBlocks d code v).toList.filter (fun b => !start.contains b) = consumers at *
  have hsp : Dominance.Spreading d (· ∈ start) [] consumers
      (consumers.foldl OrderedSet.insert start) := by
    refine ⟨hnd, fun b hb => ?_, fun b hb => ?_, fun b hb => ?_⟩
    · exact isReachable_of_mem_consumingBlocks hcode ((hmem b).1 hb).1
    · exact OrderedSet.mem_foldl_insert.2 (.inl hb)
    · exact (OrderedSet.mem_foldl_insert.1 hb).imp_right .inl
  have hfuel : d.graph.size < (consumers.length + d.graph.size + 1) + ([] : List BlockId).length := by
    simp only [List.length_nil]
    omega
  obtain ⟨hsub, hclosed⟩ := Dominance.spreadBack_closed hf hd hfuel hsp
  generalize d.spreadBack _ _ _ = spread at *
  have hconsumed : ∀ b ∈ consumingBlocks d code v, b ∈ spread := by
    intro b hb
    refine hsub b (OrderedSet.mem_foldl_insert.2 ?_)
    by_cases hs : b ∈ start
    · exact .inr hs
    · exact .inl ((hmem b).2 ⟨hb, hs⟩)
  refine ⟨by simp, fun b hb => OrderedSet.mem_insert.2 (.inr (hconsumed b hb)), fun b hb => ?_⟩
  have hpreds : (∀ p ∈ d.livePredecessors b, p ∈ spread) →
      ∀ p ∈ d.livePredecessors b, p ∈ spread.insert home :=
    fun h p hp => OrderedSet.mem_insert.2 (.inr (h p hp))
  -- The start holds the defining block, or nothing for an argument, which is defined before it.
  cases isArgument with
  | false =>
    obtain rfl : .ofList [home] = start := hstart
    rcases OrderedSet.mem_insert.1 hb with rfl | hb
    · exact .inl ⟨rfl, by simp⟩
    · rcases hclosed b hb with hfixed | h
      · exact .inl ⟨by simpa using hfixed, by simp⟩
      · exact .inr (hpreds h)
  | true =>
    obtain rfl : ∅ = start := hstart
    have hclosed' : ∀ b ∈ spread, ∀ p ∈ d.livePredecessors b, p ∈ spread := fun b hb =>
      (hclosed b hb).resolve_left (OrderedSet.notMem_empty b)
    rcases OrderedSet.mem_insert.1 hb with rfl | hb
    · by_cases hnone : ∀ c, c ∉ consumingBlocks d code v
      · exact .inl ⟨rfl, fun _ => hnone⟩
      · -- Going back from any consumer comes to the entry, which is not kept out then.
        obtain ⟨c, hc⟩ := not_forall_not.1 hnone
        have hentry := entry_mem_of_closed hd hclosed' (hconsumed c hc)
          (isReachable_of_mem_consumingBlocks hcode hc)
        exact .inr (hpreds (hclosed' b (hhome rfl ▸ hentry)))
    · exact .inr (hpreds (hclosed' b hb))

end Liveness

namespace Func

variable {f : Func} {d : Dominance} {b home : BlockId} {v : ValueId}

def codeAt (f : Func) (b : BlockId) : BlockCode := ⟨b, f.phisOf b, f.instsOf b⟩

theorem mapM_lookup {α β : Type} {as : List α} {get : α → Option β} {read : α → Except Error β}
    (hread : ∀ a b, get a = some b → read a = .ok b) (h : ∀ a ∈ as, ∃ b, get a = some b) :
    (as.mapM fun a => return (a, ← read a) : Except Error (List (α × β))) =
      .ok (as.filterMap fun a => (get a).map (a, ·)) := by
  induction as with
  | nil => rfl
  | cons a as ih =>
    obtain ⟨⟨b, hb⟩, has⟩ := List.forall_mem_cons.1 h
    rw [List.mapM_cons, ih has, hread a b hb, List.filterMap_cons, hb]
    rfl

theorem reachableCode_eq (hf : f.Sound) (hd : d.IsOf f) :
    f.reachableCode d = .ok (d.reachableBlocks.map f.codeAt) := by
  refine mapM_ok fun b hb => ?_
  have hr : d.isReachable b = true := by
    rw [hd.isReachable_iff, ← hd.entry]
    exact (hd.tree.mem_order_iff (blockGraph_consistent f)).1 hb
  obtain ⟨data, hdata⟩ := hf.linked.live_of_isReachable hd hr
  have hphis : (data.phis.mapM fun p => return (p, ← f.phi p) : Except Error _) =
      .ok (f.phisOf b) := by
    rw [phisOf, hdata]
    refine mapM_lookup (fun p phi => phi_eq_ok.2) fun p hp => ?_
    obtain ⟨phi, hphi, -⟩ := hf.linked.listed_phi b data p hdata hp
    exact ⟨phi, hphi⟩
  have hinsts : (data.insts.mapM fun i => return (i, ← f.inst i) : Except Error _) =
      .ok (f.instsOf b) := by
    rw [instsOf, hdata]
    refine mapM_lookup (fun i inst => inst_eq_ok.2) fun i hi => ?_
    obtain ⟨inst, hinst, -⟩ := hf.linked.listed_inst b data i hdata hi
    exact ⟨inst, hinst⟩
  exact bind_eq_ok.2 ⟨data, block_eq_ok.2 hdata, bind_eq_ok.2 ⟨_, hphis,
    bind_eq_ok.2 ⟨_, hinsts, rfl⟩⟩⟩

/-- A value that can live in a slot: its defining block is reachable, and it may be an argument. -/
def Resides (f : Func) (d : Dominance) (v : ValueId) (home : BlockId) (isArgument : Bool) : Prop :=
  ∃ val, f.values.get? v = some val ∧ val.kind = .value ∧ f.defBlock v = .ok (some home) ∧
    d.isReachable home = true ∧ (isArgument = true ↔ ∃ n, val.definition = .argument n)

theorem Resides.unique {home' : BlockId} {isArgument isArgument' : Bool}
    (h : f.Resides d v home isArgument) (h' : f.Resides d v home' isArgument') :
    home = home' ∧ isArgument = isArgument' := by
  obtain ⟨val, hv, -, hblock, -, harg⟩ := h
  obtain ⟨val', hv', -, hblock', -, harg'⟩ := h'
  obtain rfl := Option.some.inj (hv.symm.trans hv')
  refine ⟨Option.some.inj (Except.ok.inj (hblock.symm.trans hblock')), ?_⟩
  rw [Bool.eq_iff_iff, harg, harg']

theorem defBlock_ok (hf : f.Sound) {val : Value} (hv : f.values.get? v = some val) :
    ∃ home?, f.defBlock v = .ok home? := by
  unfold defBlock
  rw [value_eq_ok.2 hv]
  cases hdef : val.definition with
  | inst i =>
    obtain ⟨inst, hi, -⟩ := hf.linked.inst_origin v val i hv hdef
    exact ⟨some inst.block, by simp [bind, Except.bind, hdef, inst_eq_ok.2 hi, pure, Except.pure]⟩
  | phi p =>
    obtain ⟨phi, hp, -⟩ := hf.linked.phi_origin v val p hv hdef
    exact ⟨some phi.block, by simp [bind, Except.bind, hdef, phi_eq_ok.2 hp, pure, Except.pure]⟩
  | argument n => exact ⟨some f.entry, by simp [bind, Except.bind, hdef, pure, Except.pure]⟩
  | const k => exact ⟨none, by simp [bind, Except.bind, hdef, pure, Except.pure]⟩
  | upvalue c n => exact ⟨none, by simp [bind, Except.bind, hdef, pure, Except.pure]⟩

theorem defBlock_cases {val : Value} (hv : f.values.get? v = some val)
    (h : f.defBlock v = .ok (some home)) :
    (∃ i inst, val.definition = .inst i ∧ f.insts.get? i = some inst ∧ inst.block = home) ∨
      (∃ p phi, val.definition = .phi p ∧ f.phis.get? p = some phi ∧ phi.block = home) ∨
      ∃ n, val.definition = .argument n ∧ home = f.entry := by
  obtain ⟨val', hv', h⟩ := bind_eq_ok.1 h
  obtain rfl := Option.some.inj (hv.symm.trans (value_eq_ok.1 hv'))
  cases hdef : val.definition with
  | inst i =>
    simp only [hdef] at h
    obtain ⟨inst, hi, h⟩ := bind_eq_ok.1 h
    exact .inl ⟨i, inst, rfl, inst_eq_ok.1 hi, Option.some.inj (pure_eq_ok.1 h)⟩
  | phi p =>
    simp only [hdef] at h
    obtain ⟨phi, hp, h⟩ := bind_eq_ok.1 h
    exact .inr (.inl ⟨p, phi, rfl, phi_eq_ok.1 hp, Option.some.inj (pure_eq_ok.1 h)⟩)
  | argument n =>
    simp only [hdef] at h
    exact .inr (.inr ⟨n, rfl, (Option.some.inj (pure_eq_ok.1 h)).symm⟩)
  | const k =>
    simp only [hdef] at h
    cases pure_eq_ok.1 h
  | upvalue c n =>
    simp only [hdef] at h
    cases pure_eq_ok.1 h

theorem candidate?_spec (d : Dominance) (hf : f.Sound) {val : Value} (hv : f.values.get? v = some val) :
    ∃ home?, f.candidate? d v = .ok home? ∧
      ∀ home isArgument, home? = some (home, isArgument) ↔ f.Resides d v home isArgument := by
  obtain ⟨home?, hhome⟩ := defBlock_ok hf hv
  by_cases hres : val.kind = .value ∧ val.definition.isSlotResident = true
  · have hif : (val.kind = .value && val.definition.isSlotResident) = true := by simp [hres]
    refine ⟨_, bind_eq_ok.2 ⟨val, value_eq_ok.2 hv, (if_pos hif).trans
      (bind_eq_ok.2 ⟨home?, hhome, rfl⟩)⟩, fun home isArgument => ?_⟩
    · simp only [Resides, hv, hhome, Option.some.injEq, Except.ok.injEq, exists_eq_left', hres.1,
        Option.map_eq_some_iff, Option.filter_eq_some_iff, Prod.mk.injEq, true_and]
      cases hdef : val.definition <;> grind
  · have hif : ¬ (val.kind = .value && val.definition.isSlotResident) = true := by simpa using hres
    refine ⟨none, ?_, fun home isArgument => ?_⟩
    · refine bind_eq_ok.2 ⟨val, value_eq_ok.2 hv, ?_⟩
      rw [if_neg hif]
      rfl
    · simp only [reduceCtorEq, false_iff]
      rintro ⟨val', hv', hkind, hblock, -⟩
      obtain rfl := Option.some.inj (hv.symm.trans hv')
      -- A value that is defined nowhere is no candidate.
      refine hres ⟨hkind, ?_⟩
      rcases defBlock_cases hv hblock with ⟨i, inst, hdef, -⟩ | ⟨p, phi, hdef, -⟩ | ⟨n, hdef, -⟩
      all_goals
        rw [hdef]
        rfl

end Func

namespace Liveness

variable {f : Func} {d : Dominance} {l : Liveness} {v : ValueId} {b p : BlockId} {r : LiveRange}

/-- `l` is the liveness of the function on its dominance. -/
structure IsOf (l : Liveness) (f : Func) (d : Dominance) : Prop where
  dom : l.dom = d
  code : l.code = d.reachableBlocks.map f.codeAt
  range : ∀ v r, l.ranges.get? v = some r ↔ f.Resides d v r.home r.isArgument ∧
    r.blocks = liveBlocksOf d l.code v r.home r.isArgument

theorem ofFunc_ok (hf : f.Sound) (hd : d.IsOf f) : ∃ l, ofFunc f d = .ok l ∧ l.IsOf f d := by
  have hspec : ∀ v, ∃ home? : Option (BlockId × Bool), v ∈ f.values.live →
      f.candidate? d v = .ok home? ∧
        ∀ home isArgument, home? = some (home, isArgument) ↔ f.Resides d v home isArgument := by
    intro v
    by_cases hv : v ∈ f.values.live
    · obtain ⟨val, hval⟩ := Arena.mem_live.1 hv |> Option.isSome_iff_exists.1
      obtain ⟨home?, h⟩ := Func.candidate?_spec d hf hval
      exact ⟨home?, fun _ => h⟩
    · exact ⟨none, fun h => absurd h hv⟩
  choose home? hhome using hspec
  have hcandidates : (f.values.live.filterMapM fun v =>
      return (← f.candidate? d v).map (v, ·) : Except Error _) =
      .ok (f.values.live.filterMap fun v => (home? v).map (v, ·)) :=
    filterMapM_ok fun v hv => bind_eq_ok.2 ⟨_, (hhome v hv).1, rfl⟩
  refine ⟨_, bind_eq_ok.2 ⟨_, hcandidates, bind_eq_ok.2 ⟨_, Func.reachableCode_eq hf hd, rfl⟩⟩,
    rfl, rfl, fun v r => ?_⟩
  have hmem : ∀ v r, (v, r) ∈ (f.values.live.filterMap fun v => (home? v).map (v, ·)).map
      (fun (v, home, isArgument) => (v, LiveRange.mk home isArgument
        (liveBlocksOf d (d.reachableBlocks.map f.codeAt) v home isArgument))) ↔
      f.Resides d v r.home r.isArgument ∧
        r.blocks = liveBlocksOf d (d.reachableBlocks.map f.codeAt) v r.home r.isArgument := by
    intro v r
    simp only [List.mem_map, List.mem_filterMap, Option.map_eq_some_iff]
    constructor
    · rintro ⟨_, ⟨w, hw, ⟨home, isArgument⟩, hsome, rfl⟩, heq⟩
      obtain ⟨rfl, rfl⟩ := Prod.mk.inj heq
      exact ⟨((hhome w hw).2 home isArgument).1 hsome, rfl⟩
    · rintro ⟨hres, hblocks⟩
      have hw : v ∈ f.values.live := by
        obtain ⟨val, hval, -⟩ := hres
        exact Arena.mem_live.2 (by simp [Arena.contains, hval])
      refine ⟨(v, r.home, r.isArgument), ⟨v, hw, (r.home, r.isArgument),
        ((hhome v hw).2 _ _).2 hres, rfl⟩, ?_⟩
      rw [← hblocks]
  have hfun : ∀ (v : ValueId) (r r' : LiveRange), f.Resides d v r.home r.isArgument ∧
        r.blocks = liveBlocksOf d (d.reachableBlocks.map f.codeAt) v r.home r.isArgument →
      f.Resides d v r'.home r'.isArgument ∧
        r'.blocks = liveBlocksOf d (d.reachableBlocks.map f.codeAt) v r'.home r'.isArgument →
      r = r' := by
    rintro v ⟨home, isArgument, blocks⟩ ⟨home', isArgument', blocks'⟩ ⟨hres, hb⟩ ⟨hres', hb'⟩
    obtain ⟨hh, ha⟩ := hres.unique hres'
    dsimp only at hh ha hb hb'
    rw [hh, ha] at hb
    rw [hh, ha, hb, hb']
  rw [← hmem]
  exact OrderedMap.get?_ofList_iff fun v r r' hr hr' => hfun v r r' ((hmem v r).1 hr)
    ((hmem v r').1 hr')

def Consumed (l : Liveness) (v : ValueId) : Prop := ∃ b, b ∈ consumingBlocks l.dom l.code v

namespace IsOf

theorem mem_code (hl : l.IsOf f d) (hd : d.IsOf f) {c : BlockCode} :
    c ∈ l.code ↔ ∃ b, d.isReachable b = true ∧ f.codeAt b = c := by
  rw [hl.code, List.mem_map]
  refine exists_congr fun b => and_congr_left fun _ => ?_
  rw [hd.isReachable_iff, ← hd.entry]
  exact hd.tree.mem_order_iff (Func.blockGraph_consistent f)

theorem isCandidate_iff (hl : l.IsOf f d) :
    l.isCandidate v = true ↔ ∃ home isArgument, f.Resides d v home isArgument := by
  rw [isCandidate, OrderedMap.contains, Option.isSome_iff_exists]
  constructor
  · rintro ⟨r, hr⟩
    exact ⟨r.home, r.isArgument, ((hl.range v r).1 hr).1⟩
  · rintro ⟨home, isArgument, h⟩
    exact ⟨⟨home, isArgument, liveBlocksOf d l.code v home isArgument⟩, (hl.range v _).2 ⟨h, rfl⟩⟩

theorem home_eq_entry (hl : l.IsOf f d) (hr : l.ranges.get? v = some r)
    (harg : r.isArgument = true) : r.home = f.entry := by
  obtain ⟨⟨val, hv, -, hblock, -, hiff⟩, -⟩ := (hl.range v r).1 hr
  obtain ⟨n, hn⟩ := hiff.1 harg
  rcases Func.defBlock_cases hv hblock with ⟨i, inst, hdef, -⟩ | ⟨p, phi, hdef, -⟩ | ⟨n, -, hhome⟩
  · cases hn.symm.trans hdef
  · cases hn.symm.trans hdef
  · exact hhome

theorem isArgument_iff (hl : l.IsOf f d) (hf : f.Sound) (hr : l.ranges.get? v = some r) :
    r.isArgument = true ↔ v ∈ f.arguments := by
  obtain ⟨⟨val, hval, -, -, -, harg⟩, -⟩ := (hl.range v r).1 hr
  rw [harg, hf.linked.argument_iff]
  exact ⟨fun ⟨n, hn⟩ => ⟨val, n, hval, hn⟩, fun ⟨val', n, hval', hn⟩ =>
    ⟨n, Option.some.inj (hval.symm.trans hval') ▸ hn⟩⟩

theorem blocks_spec (hl : l.IsOf f d) (hf : f.Sound) (hd : d.IsOf f)
    (hr : l.ranges.get? v = some r) :
    r.home ∈ r.blocks ∧ (∀ b ∈ consumingBlocks d l.code v, b ∈ r.blocks) ∧
      ∀ b ∈ r.blocks, (b = r.home ∧ (r.isArgument = true → ¬ l.Consumed v)) ∨
        ∀ p ∈ d.livePredecessors b, p ∈ r.blocks := by
  obtain ⟨-, hblocks⟩ := (hl.range v r).1 hr
  have hcode : ∀ c ∈ l.code, d.isReachable c.block = true := by
    intro c hc
    obtain ⟨b, hb, rfl⟩ := (hl.mem_code hd).1 hc
    exact hb
  have hspec := liveBlocksOf_spec v hf hd hcode (hl.home_eq_entry hr)
  rw [← hblocks] at hspec
  refine ⟨hspec.1, hspec.2.1, fun b hb => (hspec.2.2 b hb).imp_left fun h => ⟨h.1, ?_⟩⟩
  rintro harg ⟨c, hc⟩
  rw [hl.dom] at hc
  exact h.2 harg c hc

theorem isLiveInBlock_iff : l.isLiveInBlock v b = true ↔
    ∃ r, l.ranges.get? v = some r ∧ b ∈ r.blocks := by
  unfold isLiveInBlock
  cases l.ranges.get? v <;> simp

theorem isLiveIn_iff (hl : l.IsOf f d) (hd : d.IsOf f) : l.isLiveIn v b = true ↔
    ∃ r, l.ranges.get? v = some r ∧ b ∈ r.blocks ∧
      (r.home ≠ b ∨ r.isArgument = true ∧ ∃ p ∈ d.livePredecessors f.entry, p ∈ r.blocks) := by
  have hentry : d.entry = f.entry := hd.entry
  unfold isLiveIn
  cases l.ranges.get? v with
  | none => simp
  | some r =>
    simp only [hl.dom, hentry, Bool.and_eq_true, Bool.or_eq_true, OrderedSet.contains_iff_mem,
      bne_iff_ne, List.any_eq_true, Option.some.injEq, exists_eq_left']

theorem isLiveOut_iff (hl : l.IsOf f d) (hd : d.IsOf f) : l.isLiveOut v b = true ↔
    l.isLiveInBlock v b = true ∧
      (l.feedsPhi v b = true ∨ ∃ s, s ∈ f.blockGraph.successorsOf b ∧ l.isLiveIn v s = true) := by
  rw [isLiveOut, Bool.and_eq_true, Bool.or_eq_true, List.any_eq_true, hl.dom, hd.graph]

theorem home_or_liveIn (hl : l.IsOf f d) (hd : d.IsOf f) (h : l.isLiveInBlock v b = true) :
    l.isLiveIn v b = true ∨ ∃ r, l.ranges.get? v = some r ∧ r.home = b := by
  obtain ⟨r, hr, hb⟩ := isLiveInBlock_iff.1 h
  by_cases hhome : r.home = b
  · exact .inr ⟨r, hr, hhome⟩
  · exact .inl ((hl.isLiveIn_iff hd).2 ⟨r, hr, hb, .inl hhome⟩)

theorem liveOut_of_liveIn (hl : l.IsOf f d) (hf : f.Sound) (hd : d.IsOf f) (hc : l.Consumed v)
    (h : l.isLiveIn v b = true) (hp : p ∈ d.livePredecessors b) : l.isLiveOut v p = true := by
  have hin := h
  obtain ⟨r, hr, hb, hhome⟩ := (hl.isLiveIn_iff hd).1 hin
  have hpreds := ((hl.blocks_spec hf hd hr).2.2 b hb).resolve_left (by
    rintro ⟨rfl, harg⟩
    rcases hhome with hne | ⟨hisarg, -⟩
    · exact hne rfl
    · exact harg hisarg hc)
  refine (hl.isLiveOut_iff hd).2 ⟨isLiveInBlock_iff.2 ⟨r, hr, hpreds p hp⟩, .inr ⟨b, ?_, h⟩⟩
  exact (hd.mem_livePredecessors.1 hp).1

/-- An argument that is consumed stays live around a loop through the entry. -/
theorem liveIn_entry (hl : l.IsOf f d) (hf : f.Sound) (hd : d.IsOf f) (hc : l.Consumed v)
    (hr : l.ranges.get? v = some r) (harg : r.isArgument = true) (hhome : r.home = f.entry)
    (hp : p ∈ d.livePredecessors f.entry) : l.isLiveIn v f.entry = true := by
  obtain ⟨hself, -, hclosed⟩ := hl.blocks_spec hf hd hr
  have hpreds := (hclosed r.home hself).resolve_left fun h => h.2 harg hc
  rw [hhome] at hpreds hself
  exact (hl.isLiveIn_iff hd).2 ⟨r, hr, hself, .inr ⟨harg, p, hp, hpreds p hp⟩⟩

theorem consumes_operand (hl : l.IsOf f d) (hd : d.IsOf f) (hb : d.isReachable b = true)
    {e : InstId × Inst} (he : e ∈ f.instsOf b) (hv : v ∈ e.2.operands) :
    b ∈ consumingBlocks d l.code v := by
  refine mem_consumingBlocks.2 ⟨f.codeAt b, (hl.mem_code hd).2 ⟨b, hb, rfl⟩, .inr ⟨?_, rfl⟩⟩
  exact List.any_eq_true.2 ⟨e, he, by simpa using hv⟩

theorem consumes_source (hl : l.IsOf f d) (hd : d.IsOf f) (hb : d.isReachable b = true)
    (hp : d.isReachable p = true) {e : PhiId × Phi} (he : e ∈ f.phisOf b)
    (hv : e.2.source p = some v) :
    p ∈ consumingBlocks d l.code v ∧ l.feedsPhi v p = true := by
  have hcode := (hl.mem_code hd).2 ⟨b, hb, rfl⟩
  constructor
  · refine mem_consumingBlocks.2 ⟨f.codeAt b, hcode, .inl ⟨?_, hp⟩⟩
    refine List.mem_flatMap.2 ⟨e, he, List.mem_map.2 ⟨(p, v), ?_, rfl⟩⟩
    exact List.mem_filter.2 ⟨OrderedMap.mem_toList.2 hv, by simp⟩
  · refine List.any_eq_true.2 ⟨f.codeAt b, hcode, ?_⟩
    rw [BlockCode.taker, Option.isSome_map, List.find?_isSome]
    exact ⟨e, he, by simpa using hv⟩

theorem liveOut_of_source (hl : l.IsOf f d) (hf : f.Sound) (hd : d.IsOf f)
    (hc : l.isCandidate v = true) (hb : d.isReachable b = true) (hp : d.isReachable p = true)
    {e : PhiId × Phi} (he : e ∈ f.phisOf b) (hv : e.2.source p = some v) :
    l.Consumed v ∧ l.isLiveOut v p = true := by
  obtain ⟨hcons, hfeeds⟩ := hl.consumes_source hd hb hp he hv
  obtain ⟨r, hr⟩ := Option.isSome_iff_exists.1 hc
  have hin := isLiveInBlock_iff.2 ⟨r, hr, (hl.blocks_spec hf hd hr).2.1 p hcons⟩
  exact ⟨⟨p, hl.dom ▸ hcons⟩, (hl.isLiveOut_iff hd).2 ⟨hin, .inl hfeeds⟩⟩

/-- An argument that is consumed is live at the end of each block that leads back to the entry. -/
theorem liveOut_of_argument (hl : l.IsOf f d) (hf : f.Sound) (hd : d.IsOf f)
    (hc : l.isCandidate v = true) (hcons : l.Consumed v) (harg : v ∈ f.arguments)
    (hp : p ∈ d.livePredecessors f.entry) : l.isLiveOut v p = true := by
  obtain ⟨r, hr⟩ := Option.isSome_iff_exists.1 hc
  have htrue := (hl.isArgument_iff hf hr).2 harg
  have hin := hl.liveIn_entry hf hd hcons hr htrue (hl.home_eq_entry hr htrue) hp
  exact hl.liveOut_of_liveIn hf hd hcons hin hp

theorem find?_code (hl : l.IsOf f d) (hd : d.IsOf f) (hb : d.isReachable b = true) :
    l.code.find? (fun c => c.block = b) = some (f.codeAt b) := by
  obtain ⟨c, hc⟩ : ∃ c, l.code.find? (fun c => c.block = b) = some c := by
    rw [← Option.isSome_iff_exists, List.find?_isSome]
    exact ⟨f.codeAt b, (hl.mem_code hd).2 ⟨b, hb, rfl⟩, by simp [Func.codeAt]⟩
  obtain ⟨b', -, rfl⟩ := (hl.mem_code hd).1 (List.mem_of_find?_eq_some hc)
  have hsome := List.find?_some hc
  have hb' : b' = b := of_decide_eq_true hsome
  rw [hc, hb']

theorem notMem_of_lastUse (hl : l.IsOf f d) (hf : f.Sound) (hd : d.IsOf f)
    (hb : d.isReachable b = true) {pre post : List (InstId × Inst)} {e : InstId × Inst}
    (hsplit : f.instsOf b = pre ++ e :: post) (h : l.lastUse v b = some (.inst e.1)) :
    ∀ e' ∈ post, v ∉ e'.2.operands := by
  unfold lastUse at h
  split at h
  · rw [hl.find?_code hd hb, Option.bind_some] at h
    split at h
    · rename_i i hlast
      obtain ⟨e₀, he₀, hi⟩ := Option.map_eq_some_iff.1 hlast
      obtain ⟨-, as, bs, hrev, hnone⟩ := List.find?_eq_some_iff_append.1 he₀
      have hsplit' : f.instsOf b = bs.reverse ++ e₀ :: as.reverse := by
        have := congrArg List.reverse hrev
        simpa [Func.codeAt] using this
      have hid : e₀.1 = e.1 := by
        rw [hi]
        simpa using h
      -- The last reader is the instruction itself, since a block lists each one once.
      have hnd := hf.linked.instsOf_nodup b
      have heq : e₀ = e :=
        List.inj_on_of_nodup_map hnd (by rw [hsplit']; simp) (by rw [hsplit]; simp) hid
      subst heq
      have hpost : post = as.reverse := by
        have hnd' : (f.instsOf b).Nodup := List.Nodup.of_map _ hnd
        have hpre : e₀ ∉ pre ∧ e₀ ∉ post := by
          rw [hsplit, List.nodup_append] at hnd'
          exact ⟨fun hm => hnd'.2.2 e₀ hm e₀ List.mem_cons_self rfl,
            (List.nodup_cons.1 hnd'.2.1).1⟩
        exact (List.append_cons_inj_of_notMem hpre.1 hpre.2).1 (hsplit.symm.trans hsplit') |>.2.2
      intro e' he' hv
      rw [hpost, List.mem_reverse] at he'
      have := hnone e' he'
      simp [hv] at this
    · obtain ⟨p, -, hp⟩ := Option.map_eq_some_iff.1 h
      cases hp
  · cases h

end IsOf

end Liveness

theorem Edit.liveness_ok {f : Func} (hf : f.Sound) (hv : (verify.apply f).1 = .ok ()) :
    ∃ d l, f.Verified d ∧ l.IsOf f d ∧
      liveness.apply f = (.ok l, { f with dominance := some d }) := by
  obtain ⟨d, hdom, hverified⟩ := verify_ok hf hv
  obtain ⟨l, hl, hisof⟩ := Liveness.ofFunc_ok hf hverified.dominance
  refine ⟨d, l, hverified, hisof, ?_⟩
  unfold liveness
  rw [apply_bind, hdom]
  dsimp only
  rw [apply_query]
  exact congrArg (·, _) hl

end Midend
