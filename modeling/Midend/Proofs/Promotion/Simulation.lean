import Midend.Proofs.Promotion.WellFormed

/-!
Promotion keeps what instructions receive. The two functions are executed side by side, and between
them runs the execution that notes join values: it has the memory of the function before promotion
and the values of the one after it. Wherever a value that is left is available, both have it.
-/

namespace Midend

open Cell

/-- `x` is `z` apart from values that `f` does not have. -/
structure Cell.Notes (f : Func) (x z : Execution ValueId Term Memory) : Prop where
  env : ∀ v, f.values.contains v = true → x.env v = z.env v
  state : x.state = z.state
  reads : x.reads = z.reads

variable {f g : Func} {d : Dominance} {cell : Cell} {joins : Joins} {b c : BlockId} {k : Nat}
  {t : Site} {v : ValueId} {x y z : Execution ValueId Term Memory} {e : InstId × Inst}

namespace Cell.Notes

theorem inst (hs : f.SlotsLive) (h : Notes f x z) (hi : f.insts.get? e.1 = some e.2)
    (m : Machine Term Memory) : Notes f (x.runInst m id e) (z.runInst m id e) := by
  have hargs : x.operands m id e.2 = z.operands m id e.2 := by
    refine List.map_congr_left fun v hv => ?_
    rw [h.state, id, h.env v (hs.operand _ _ v hi hv)]
  refine ⟨fun v hv => ?_, ?_, ?_⟩
  · rw [Execution.env_runInst, Execution.env_runInst, hargs, h.state, h.env v hv]
  · rw [Execution.state_runInst, Execution.state_runInst, hargs, h.state]
  · rw [Execution.reads_runInst, Execution.reads_runInst, hargs, h.reads]

theorem edge (hp : Promoting f d cell joins) (h : Notes f x z) :
    Notes f (cell.note joins c (x.runPhis id b (f.phisOf c))) (z.runPhis id b (f.phisOf c)) := by
  have htaken : x.taken id b (f.phisOf c) = z.taken id b (f.phisOf c) := by
    refine List.filterMap_congr fun e he => ?_
    obtain ⟨-, -, -, hphi⟩ := Func.mem_phisOf.1 he
    cases hv : e.2.source b with
    | none => rfl
    | some v =>
      rw [Option.map_some, Option.map_some, id, h.env v (hp.slots.source _ _ b v hphi hv)]
  refine ⟨fun v hv => ?_, ?_, ?_⟩
  · rw [env_note, if_neg]
    · unfold Execution.runPhis
      rw [htaken]
      exact Execution.env_writeAll_congr (h.env v hv)
    · intro hj
      rw [Arena.contains, hp.join_fresh _ _ hj] at hv
      cases hv
  · rw [state_note, Execution.state_runPhis, Execution.state_runPhis, h.state]
  · rw [reads_note]
    unfold Execution.runPhis
    rw [Execution.reads_writeAll, Execution.reads_writeAll, htaken, h.reads]

end Cell.Notes

/-- The execution `y` of `g` where the noting execution `x` of `f` has come to a site: what is left
and available has the same value, and what is left of the instructions has received the same. -/
structure Cell.Matches (f : Func) (cell : Cell) (joins : Joins) (g : Func) (t : Site)
    (x y : Execution ValueId Term Memory) : Prop where
  env : ∀ v, g.values.contains v = true → Available f joins v t → y.env v = x.env v
  count : ∀ i, g.insts.contains i = true → y.state.count i = x.state.count i
  content : ∀ i n, i ≠ cell.creation → y.state.content i n = x.state.content i n
  received : y.received = x.received.filter fun r => g.insts.contains r.1

/-- What an instruction yields and does to memory depends on its operands, its count and the cells
that it gets at. -/
theorem symbolic_step_congr {u w : Option ValueId} {i c : InstId} {op : Opcode} {args : List Term}
    {s s' : Memory} (hcount : s'.count i = s.count i)
    (hcontent : ∀ j n, j ≠ c → s'.content j n = s.content j n)
    (hload : op = .getRef → ∀ n, args.head? ≠ some (.cell c n)) :
    ((symbolic u).step i op args s').1 = ((symbolic w).step i op args s).1 ∧
    (∀ j, s'.count j = s.count j → ((symbolic u).step i op args s').2.count j =
      ((symbolic w).step i op args s).2.count j) ∧
    ∀ j n, j ≠ c → ((symbolic u).step i op args s').2.content j n =
      ((symbolic w).step i op args s).2.content j n := by
  have htick : ∀ j, s'.count j = s.count j → (s'.tick i).count j = (s.tick i).count j := by
    intro j hj
    by_cases hji : j = i
    · simp [Memory.tick, hji, hcount]
    · simp [Memory.tick, hji, hj]
  have hstore : ∀ (l : InstId) (m : Nat) (a : Term) (j : InstId) (n : Nat), j ≠ c →
      ((s'.tick i).store l m a).content j n = ((s.tick i).store l m a).content j n := by
    intro l m a j n hj
    simp only [Memory.store, Memory.content_tick, hcontent j n hj]
  unfold symbolic
  dsimp only
  split
  · rw [hcount]
    exact ⟨rfl, htick, hstore _ _ _⟩
  · rename_i j n rest
    refine ⟨hcontent j n ?_, htick, hcontent⟩
    rintro rfl
    exact hload rfl n rfl
  · rw [hcount]
    exact ⟨rfl, htick, hstore _ _ _⟩
  · rw [hcount]
    exact ⟨rfl, htick, hcontent⟩

/-- A value that an instruction does not yield is there before it if it is there after it. -/
theorem Cell.Available.of_succ (hk : (f.instsOf b)[k]? = some e)
    (h : Available f joins v ⟨b, k + 1⟩) (hne : e.2.result ≠ some v) :
    Available f joins v ⟨b, k⟩ := by
  intro s hs
  rcases (h s hs).of_succ with rfl | hbefore
  · cases hs with
    | inst hk' hr =>
      rw [hk] at hk'
      exact absurd (Option.some.inj hk' ▸ hr) hne
  · exact hbefore

theorem Cell.Available.of_edge (hb : f.Reachable b) (hedge : f.Edge b c)
    (h : Available f joins v ⟨c, 0⟩) (hno : ¬ Written f joins v ⟨c, 0⟩) :
    Available f joins v (.exit f b) := by
  intro s hs
  have hwithin : s.Within f := by
    cases hs with
    | inst hk _ => exact (List.getElem?_eq_some_iff.1 hk).1
    | phi _ _ => exact Nat.zero_le _
    | join _ => exact Nat.zero_le _
  refine ((h s hs).of_edge hwithin hb hedge).resolve_left ?_
  rintro rfl
  exact hno hs

theorem Func.Linked.env_runPhis (hf : f.Linked fun _ => False) {p : PhiId} {phi : Phi}
    (hphi : f.phis.get? p = some phi) (hv : phi.source b = some v) :
    (x.runPhis id b (f.phisOf phi.block)).env phi.result = x.env v := by
  obtain ⟨data, hdata, hmem⟩ := hf.phi_listed p phi hphi id
  have he : (p, phi) ∈ f.phisOf phi.block := Func.mem_phisOf.2 ⟨data, hdata, hmem, hphi⟩
  exact Execution.env_runPhis_of_mem he (fun e' he' heq => hf.eq_of_result he he' heq) hv

/-- What goes with the cell gets at no other one. -/
theorem Promoting.content_dissolves (hp : Promoting f d cell joins) (hx : cell.Sealed x)
    (hi : f.insts.get? e.1 = some e.2) (hdis : cell.Dissolves e.1 e.2) {i : InstId} {n : Nat}
    (hne : i ≠ cell.creation) :
    (cell.machine.step e.1 e.2.opcode (x.operands cell.machine id e.2) x.state).2.content i n =
      x.state.content i n := by
  rcases symbolic_step_cases (some cell.value) e.1 e.2.opcode (x.operands cell.machine id e.2)
    x.state with ⟨hop, heq⟩ | ⟨-, _, _, _, -, heq⟩ | ⟨hop, j, m, a, rest, ha, heq⟩ | ⟨-, heq⟩
  · rw [heq]
    refine if_neg fun hand => hne (hand.1.trans ?_)
    rcases hdis with hcreation | ⟨-, hget | hset⟩
    · exact hcreation
    · simp [hop] at hget
    · simp [hop] at hset
  · rw [heq]
    rfl
  · rw [heq]
    refine if_neg fun hand => hne (hand.1.trans (hx.own j m ?_))
    -- A store that goes has the cell in front.
    have hc : cell.value ∈ e.2.operands := by
      rcases hdis with hcreation | ⟨hc, -⟩
      · rw [hp.creation_opcode hi hcreation] at hop
        cases hop
      · exact hc
    obtain ⟨v, tail, hops, hv, -⟩ := List.map_eq_cons_iff.1 ha
    rw [hop] at hv
    rcases hp.access hi hc with ⟨hget, -⟩ | ⟨-, hhead, -⟩ | ⟨proto, hclosure⟩
    · simp [hop] at hget
    · rw [hops] at hhead
      exact Option.some.inj hhead ▸ hv
    · simp [hop] at hclosure
  · rw [heq]
    rfl

section Step

variable (hp : Promoting f d cell joins) (hd : Dissolved f cell joins g)

include hd

omit hd in
theorem Stage.matches_start (hs : Stage f cell joins g) :
    Matches f cell joins g ⟨f.entry, 0⟩ f.start g.start := by
  refine ⟨fun v hv _ => ?_, fun i _ => ?_, fun i n _ => ?_, ?_⟩
  · have hinitial : g.initial .undefined Term.atom v = f.initial .undefined .atom v := by
      obtain ⟨val, hval⟩ := Option.isSome_iff_exists.1 hv
      rcases hs.value v val hval with ⟨old, hold, hdef⟩ | ⟨hnone, p, hdef⟩
      · simp only [Func.initial, hval, hold, Option.map_some, hdef]
      · simp only [Func.initial, hval, hnone, Option.map_some, Option.map_none, hdef]
    unfold Func.start
    rw [hs.arguments]
    exact Execution.env_writeAll_congr hinitial
  · simp [Func.start]
  · simp [Func.start]
  · simp [Func.start, Execution.received]

include hp

theorem Dissolved.operands_eq (hx : Reached f cell joins ⟨b, k⟩ x)
    (h : Matches f cell joins g ⟨b, k⟩ x y) (hk : (f.instsOf b)[k]? = some e) {inst : Inst}
    (hi : g.insts.get? e.1 = some inst) :
    y.operands (symbolic none) id inst = x.operands cell.machine id e.2 := by
  obtain ⟨-, -, -, he⟩ := Func.mem_instsOf.1 (List.mem_of_getElem? hk)
  obtain ⟨inst₀, hi₀, hshape, hreads⟩ := hd.stage.inst e.1 inst hi
  obtain rfl := Option.some.inj (he.symm.trans hi₀)
  obtain ⟨hop, -⟩ := Inst.mk.inj hshape
  have hblock := hp.sound.linked.block_of_instsOf (List.mem_of_getElem? hk)
  rw [hblock] at hreads
  have hunheld : cell.value ∉ inst.operands := by
    have hzero := hd.unheld (.inst e.1)
    rw [Func.held_inst, hi] at hzero
    exact List.count_eq_zero.1 hzero
  have hall : List.Forall₂ (fun w v => (g.values.contains w = true ∧ w ≠ cell.value) ∧
      Reads f cell joins e.2.opcode ⟨b, k⟩ v w) inst.operands e.2.operands :=
    (List.forall₂_and_left _ _).2 ⟨fun w hw => ⟨hd.stage.slots.operand _ _ w hi hw,
      fun hwc => hunheld (hwc ▸ hw)⟩, (hreads k hk (hp.reachable hx).1).flip⟩
  rw [← List.forall₂_eq_eq_eq, Execution.operands, Execution.operands, List.forall₂_map_left_iff,
    List.forall₂_map_right_iff, hop]
  refine hall.imp fun w v hwv => ?_
  obtain ⟨⟨hlive, hne⟩, hread⟩ := hwv
  have hview : (symbolic none).view e.2.opcode w y.state (y.env (id w)) = y.env w := by
    simp only [symbolic, id]
    split <;> simp
  rw [hview]
  rcases hread with hsame | ⟨⟨proto, hclosure⟩, rfl, hcopies⟩
  · have hvc : v ≠ cell.value := fun hvc => hne (hsame.cell_iff.1 hvc)
    have hview' : cell.machine.view e.2.opcode v x.state (x.env (id v)) = x.env v := by
      simp only [symbolic, id]
      split
      · rw [if_neg fun heq => hvc (Option.some.inj heq).symm]
      · rfl
    rw [hview', h.env w hlive hsame.right, hsame.eq x hx]
  · rw [h.env w hlive hcopies.available, hcopies.eq x hx, hclosure]
    simp [symbolic, content]

theorem Dissolved.matches_kept (hx : Reached f cell joins ⟨b, k⟩ x)
    (h : Matches f cell joins g ⟨b, k⟩ x y) (hk : (f.instsOf b)[k]? = some e) {inst : Inst}
    (hi : g.insts.get? e.1 = some inst) :
    Matches f cell joins g ⟨b, k + 1⟩ (x.runInst cell.machine id e)
      (y.runInst (symbolic none) id (e.1, inst)) := by
  obtain ⟨-, -, -, he⟩ := Func.mem_instsOf.1 (List.mem_of_getElem? hk)
  obtain ⟨inst₀, hi₀, hshape, -⟩ := hd.stage.inst e.1 inst hi
  obtain rfl := Option.some.inj (he.symm.trans hi₀)
  obtain ⟨hop, -, hres, -⟩ := Inst.mk.inj hshape
  have hlive : g.insts.contains e.1 = true := Option.isSome_iff_exists.2 ⟨inst, hi⟩
  have hargs := hd.operands_eq hp hx h hk hi
  have hload : e.2.opcode = .getRef → ∀ n,
      (x.operands cell.machine id e.2).head? ≠ some (.cell cell.creation n) := by
    intro hget n hhead
    -- A load of the cell would be gone, so this one reads another cell.
    have hno : cell.value ∉ e.2.operands := fun hc => by
      have hgone := hd.stage.gone_of_freed hp he hc (.inl hget) (hd.unheld _)
      rw [hi] at hgone
      cases hgone
    rw [Execution.operands, List.head?_map] at hhead
    obtain ⟨v, hv, heq⟩ := Option.map_eq_some_iff.1 hhead
    refine (hp.sealed_of_reached hx).view_ne (fun hvc => ?_) heq
    exact absurd (hvc ▸ List.mem_of_mem_head? hv) hno
  obtain ⟨hout, hcount, hcontent⟩ := symbolic_step_congr (u := none) (w := some cell.value)
    (h.count e.1 hlive) h.content hload
  refine ⟨fun v hv hav => ?_, fun i hi => ?_, fun i n hne => ?_, ?_⟩
  · rw [Execution.env_runInst, Execution.env_runInst, hargs, hres, hop, hout]
    split
    · rfl
    · exact h.env v hv (hav.of_succ hk ‹_›)
  · rw [Execution.state_runInst, Execution.state_runInst, hargs, hop]
    exact hcount i (h.count i hi)
  · rw [Execution.state_runInst, Execution.state_runInst, hargs, hop]
    exact hcontent i n hne
  · rw [Execution.received_runInst, Execution.received_runInst, hargs, h.received]
    simp only [List.filter_cons, hlive, if_true]

theorem Dissolved.matches_gone (hx : Reached f cell joins ⟨b, k⟩ x)
    (h : Matches f cell joins g ⟨b, k⟩ x y) (hk : (f.instsOf b)[k]? = some e)
    (hi : g.insts.get? e.1 = none) :
    Matches f cell joins g ⟨b, k + 1⟩ (x.runInst cell.machine id e) y := by
  obtain ⟨-, -, -, he⟩ := Func.mem_instsOf.1 (List.mem_of_getElem? hk)
  have hdead : g.insts.contains e.1 = false := by rw [Arena.contains, hi]; rfl
  have hsealed := hp.sealed_of_reached hx
  refine ⟨fun v hv hav => ?_, fun i hlive => ?_, fun i n hne => ?_, ?_⟩
  · have hne : e.2.result ≠ some v := fun hr => by
      rw [Arena.contains, hd.stage.value_gone hp he hr hi] at hv
      cases hv
    rw [Execution.env_runInst, if_neg hne]
    exact h.env v hv (hav.of_succ hk hne)
  · have hne : i ≠ e.1 := by
      rintro rfl
      rw [hdead] at hlive
      cases hlive
    rw [Execution.state_runInst, symbolic_step_count hne]
    exact h.count i hlive
  · rw [h.content i n hne, Execution.state_runInst]
    refine (hp.content_dissolves hsealed he (hd.stage.gone e.1 e.2 he hi) hne).symm
  · rw [Execution.received_runInst, h.received]
    simp only [List.filter_cons, hdead, Bool.false_eq_true, if_false]

theorem Dissolved.env_phi (hx : Reached f cell joins (.exit f b) x)
    (h : Matches f cell joins g (.exit f b) x y) {p : PhiId} {old : Phi}
    (hedge : f.Edge b old.block) (hold : f.phis.get? p = some old) :
    (y.runPhis id b (g.phisOf old.block)).env old.result =
      (x.runPhis id b (f.phisOf old.block)).env old.result := by
  have hreach : f.Reachable b := (hp.reachable hx).1
  obtain ⟨phi, hphi⟩ := hd.stage.kept p old hold
  rcases hd.stage.phi p phi hphi with ⟨old', hold', hshape, hsame⟩ | ⟨hnew, -⟩
  · obtain rfl := Option.some.inj (hold.symm.trans hold')
    obtain ⟨hblock, hres, -⟩ := Phi.mk.inj hshape
    obtain ⟨data, hdata, -⟩ := hp.sound.linked.phi_listed p old hold id
    have hpred : b ∈ f.predecessors phi.block := by
      rw [hblock, ← Func.edge_iff_mem_predecessors (Func.hasBlock_iff.2 ⟨data, hdata⟩)]
      exact hedge
    -- Sources are complete, so both phis have one for this edge.
    obtain ⟨w', hw'⟩ := (hd.source_iff hp hphi (.inr (hblock ▸ hreach.step hedge))).2
      ⟨hpred, hreach⟩
    obtain ⟨w, hw, hrel⟩ := exists_of_rel (hsame b) hw'
    rw [hp.sound.linked.env_runPhis hold hw, ← hblock, ← hres,
      hd.stage.sound.linked.env_runPhis hphi hw',
      h.env w' (hd.stage.slots.source _ _ _ _ hphi hw') (hrel hreach).right,
      (hrel hreach).eq x hx]
  · rw [hold] at hnew
    cases hnew

theorem Dissolved.env_join (hx : Reached f cell joins (.exit f b) x)
    (h : Matches f cell joins g (.exit f b) x y) (hedge : f.Edge b c)
    (hv : g.values.contains v = true) (hj : joins c = some v) :
    (y.runPhis id b (g.phisOf c)).env v = cell.content x := by
  have hreach : f.Reachable b := (hp.reachable hx).1
  obtain ⟨val, hval⟩ := Option.isSome_iff_exists.1 hv
  rcases hd.stage.value_cases hp hval with ⟨old, hold, -⟩ | ⟨p, phi, -, hphi, rfl, hnew, hjoin⟩
  · rw [hp.join_fresh _ _ hj] at hold
    cases hold
  · obtain rfl := hp.join_unique _ _ _ hjoin hj
    obtain ⟨w, hw⟩ := Option.isSome_iff_exists.1 (hd.complete p phi b hphi hnew hreach hedge)
    rcases hd.stage.phi p phi hphi with ⟨old, hold, -⟩ | ⟨-, -, hcopies⟩
    · rw [hnew] at hold
      cases hold
    · have hcopies := (hcopies b w hw).2.2
      rw [hd.stage.sound.linked.env_runPhis hphi hw,
        h.env w (hd.stage.slots.source _ _ _ _ hphi hw) hcopies.available, hcopies.eq x hx]

/-- What is written on entry to a block is the same for both, if it is left. -/
theorem Dissolved.env_edge (hx : Reached f cell joins (.exit f b) x)
    (h : Matches f cell joins g (.exit f b) x y) (hc : c ∈ f.successors b)
    (hv : g.values.contains v = true) (hw : Written f joins v ⟨c, 0⟩) :
    (y.runPhis id b (g.phisOf c)).env v =
      (cell.note joins c (x.runPhis id b (f.phisOf c))).env v := by
  have hedge := hp.sound.linked.edge_of_successor hp.verified.dominance (hp.reachable hx).1 hc
  rw [env_note]
  cases hw with
  | @phi _ e _ he hr =>
    subst hr
    obtain ⟨data, hdata, hmem, hphi⟩ := Func.mem_phisOf.1 he
    obtain ⟨old, hold, rfl⟩ := hp.sound.linked.listed_phi c data e.1 hdata hmem
    obtain rfl := Option.some.inj (hphi.symm.trans hold)
    rw [if_neg fun hj => by
      obtain ⟨val, hval, -⟩ := hp.sound.linked.phi_result _ _ hphi
      rw [hp.join_fresh _ _ hj] at hval
      cases hval]
    exact hd.env_phi hp hx h hedge hphi
  | join hj =>
    rw [if_pos hj, hd.env_join hp hx h hedge hv hj, content, content, Execution.state_runPhis,
      Execution.env_runPhis_of_ne fun e he => hp.phi_ne he]

theorem Dissolved.matches_edge (hx : Reached f cell joins (.exit f b) x)
    (h : Matches f cell joins g (.exit f b) x y) (hc : c ∈ f.successors b) :
    Matches f cell joins g ⟨c, 0⟩ (cell.note joins c (x.runPhis id b (f.phisOf c)))
      (y.runPhis id b (g.phisOf c)) := by
  have hreach := (hp.reachable hx).1
  have hedge := hp.sound.linked.edge_of_successor hp.verified.dominance hreach hc
  refine ⟨fun v hv hav => ?_, fun i hi => ?_, fun i n hne => ?_, ?_⟩
  · by_cases hw : Written f joins v ⟨c, 0⟩
    · exact hd.env_edge hp hx h hc hv hw
    · rw [Promoting.env_edge hw, Execution.env_runPhis_of_ne]
      · exact h.env v hv (hav.of_edge hreach hedge hw)
      · rintro e he rfl
        obtain ⟨data, hdata, hmem, hphi⟩ := Func.mem_phisOf.1 he
        obtain ⟨phi, hphi', rfl⟩ := hd.stage.sound.linked.listed_phi c data e.1 hdata hmem
        obtain rfl := Option.some.inj (hphi.symm.trans hphi')
        exact hw (hd.stage.written_of_phi hp hphi)
  · rw [state_note, Execution.state_runPhis, Execution.state_runPhis]
    exact h.count i hi
  · rw [state_note, Execution.state_runPhis, Execution.state_runPhis]
    exact h.content i n hne
  · have hnote : (cell.note joins c (x.runPhis id b (f.phisOf c))).received = x.received := by
      rw [Execution.received, reads_note]
      exact Execution.received_runPhis
    rw [Execution.received_runPhis, h.received, hnote]

end Step

theorem Stage.instsOf_eq (hp : Promoting f d cell joins) (hs : Stage f cell joins g) (b : BlockId) :
    g.instsOf b = (f.instsOf b).filterMap fun e => (g.insts.get? e.1).map (e.1, ·) := by
  have hlist := hs.block b
  cases hb : f.blocks.get? b with
  | none =>
    rw [hb, Option.map_none] at hlist
    simp [Func.instsOf, hb, hlist]
  | some data =>
    rw [hb, Option.map_some] at hlist
    have hfst : (f.instsOf b).filterMap (fun e => (g.insts.get? e.1).map (e.1, ·)) =
        ((f.instsOf b).map (·.1)).filterMap fun i => (g.insts.get? i).map (i, ·) := by
      rw [List.filterMap_map]
      rfl
    rw [hfst, hp.sound.linked.map_fst_instsOf hb, Func.instsOf, hlist, Option.getD_some,
      List.filterMap_filter]
    refine List.filterMap_congr fun i _ => ?_
    cases hi : g.insts.get? i <;> simp [Arena.contains, hi]

/-- Executions of `f` and `g` side by side at a site of `f`. -/
def Cell.Lockstep (f : Func) (cell : Cell) (joins : Joins) (g : Func) (t : Site)
    (z y : Execution ValueId Term Memory) : Prop :=
  ∃ x, Reached f cell joins t x ∧ Notes f x z ∧ Matches f cell joins g t x y

section Run

variable (hp : Promoting f d cell joins) (hd : Dissolved f cell joins g)

include hp hd

theorem Dissolved.lockstep_block (h : Lockstep f cell joins g ⟨b, 0⟩ z y) :
    Lockstep f cell joins g (.exit f b) ((f.instsOf b).foldl (·.runInst cell.machine id ·) z)
      ((g.instsOf b).foldl (·.runInst (symbolic none) id ·) y) := by
  rw [hd.stage.instsOf_eq hp]
  -- Along the instructions of `f`, some of which `g` leaves out.
  suffices hgo : ∀ rest done z y, f.instsOf b = done ++ rest →
      Lockstep f cell joins g ⟨b, done.length⟩ z y →
      Lockstep f cell joins g (.exit f b) (rest.foldl (·.runInst cell.machine id ·) z)
        ((rest.filterMap fun e => (g.insts.get? e.1).map (e.1, ·)).foldl
          (·.runInst (symbolic none) id ·) y) from hgo _ [] z y rfl h
  intro rest
  induction rest with
  | nil =>
    intro done z y hsplit h
    rw [List.append_nil] at hsplit
    unfold Site.exit
    rw [hsplit]
    exact h
  | cons e rest ih =>
    rintro done z y hsplit ⟨x, hx, hnotes, hmatches⟩
    have hk : (f.instsOf b)[done.length]? = some e := by simp [hsplit]
    obtain ⟨-, -, -, he⟩ := Func.mem_instsOf.1 (List.mem_of_getElem? hk)
    have hnext : ∀ y', Matches f cell joins g ⟨b, done.length + 1⟩
        (x.runInst cell.machine id e) y' → Lockstep f cell joins g ⟨b, (done ++ [e]).length⟩
          (z.runInst cell.machine id e) y' := by
      intro y' hy'
      rw [List.length_append]
      exact ⟨_, .inst hx hk, hnotes.inst hp.slots he _, hy'⟩
    have hsplit' : f.instsOf b = done ++ [e] ++ rest := by simp [hsplit]
    rw [List.foldl_cons, List.filterMap_cons]
    cases hi : g.insts.get? e.1 with
    | none => exact ih _ _ _ hsplit' (hnext y (hd.matches_gone hp hx hmatches hk hi))
    | some inst => exact ih _ _ _ hsplit' (hnext _ (hd.matches_kept hp hx hmatches hk hi))

theorem Dissolved.lockstep_edge (h : Lockstep f cell joins g (.exit f b) z y)
    (hc : c ∈ f.successors b) :
    Lockstep f cell joins g ⟨c, 0⟩ (z.runPhis id b (f.phisOf c)) (y.runPhis id b (g.phisOf c)) := by
  obtain ⟨x, hx, hnotes, hmatches⟩ := h
  exact ⟨_, .edge hx hc, hnotes.edge hp, hd.matches_edge hp hx hmatches hc⟩

theorem Dissolved.lockstep_follow {path : List BlockId}
    (h : Lockstep f cell joins g (.exit f b) z y)
    (hpath : (b :: path).IsChain fun b c => c ∈ f.successors b) :
    ∃ t, Lockstep f cell joins g t (Execution.follow f cell.machine id b path z)
      (Execution.follow g (symbolic none) id b path y) := by
  induction path generalizing b z y with
  | nil => exact ⟨_, h⟩
  | cons c path ih =>
    obtain ⟨hc, hrest⟩ := List.isChain_cons_cons.1 hpath
    exact ih (hd.lockstep_block hp (hd.lockstep_edge hp h hc)) hrest

theorem Dissolved.received_eq {path : List BlockId} (hpath : f.IsPath path) :
    (g.trace none path).received =
      (f.trace (some cell.value) path).received.filter fun r => g.insts.contains r.1 := by
  have hstart : Lockstep f cell joins g ⟨f.entry, 0⟩ f.start g.start :=
    ⟨f.start, .start, ⟨fun _ _ => rfl, rfl, rfl⟩, hd.stage.matches_start⟩
  obtain ⟨t, x, -, hnotes, hmatches⟩ :=
    hd.lockstep_follow hp (hd.lockstep_block hp hstart) hpath
  have hf : x.received = (f.trace (some cell.value) path).received :=
    congrArg (List.filterMap _) hnotes.reads
  rw [← hf, ← hmatches.received, Func.trace, Execution.run, hd.stage.entry]
  rfl

end Run

theorem Func.trace_withDominance (f : Func) (cached : Option Dominance) (copied : Option ValueId)
    (path : List BlockId) :
    Func.trace { f with dominance := cached } copied path = f.trace copied path := by
  have hfollow : ∀ path b (x : Execution ValueId Term Memory),
      Execution.follow { f with dominance := cached } (symbolic copied) id b path x =
        Execution.follow f (symbolic copied) id b path x := by
    intro path
    induction path with
    | nil => exact fun _ _ => rfl
    | cons c path ih => exact fun b x => ih c _
  exact hfollow path _ _

theorem Edit.contains_of_promoteCell (hf : f.Built) (hv : (verify.apply f).1 = .ok ())
    {captured : Bool} {i : InstId} {outcome : Outcome}
    (h : (promoteCell captured i).apply f = (.ok outcome, g)) : f.insts.contains i = true := by
  obtain ⟨d, hrun, -⟩ := hf.accepted hv
  cases hi : f.insts.get? i with
  | some inst => exact Option.isSome_iff_exists.2 ⟨inst, hi⟩
  | none =>
    have hquery : (query fun f => f.promotable captured d i).apply { f with dominance := some d } =
        (.error (.noInst i), { f with dominance := some d }) := by
      rw [apply_query]
      unfold Func.promotable Func.inst
      simp only [hi]
      rfl
    rw [promoteCell, apply_bind, hrun] at h
    simp only [apply_bind, hquery] at h
    cases h

/-- Promotion keeps what instructions receive. Along every path from the entry, those that are left
are executed in the same order and receive the same operands as before, where a closure that
captured the cell received its content. -/
theorem Edit.promoteCell_received (f g : Func) (hf : f.Built) (hv : (verify.apply f).1 = .ok ())
    (captured : Bool) (i : InstId) (how : Promotion)
    (h : (promoteCell captured i).apply f = (.ok (.promoted how), g)) :
    ∃ inst cell, f.insts.get? i = some inst ∧ inst.opcode = .newRef ∧ inst.result = some cell ∧
      ∀ path, f.IsPath path → g.IsPath path ∧ (g.trace none path).received =
        (f.trace (some cell) path).received.filter fun r => g.insts.contains r.1 := by
  obtain ⟨d, -, outcome, g', hrun, hg⟩ :=
    promoteCell_ensures hf hv captured (contains_of_promoteCell hf hv h)
  rw [h] at hrun
  obtain ⟨hout, rfl⟩ := Prod.mk.inj hrun
  obtain rfl := Except.ok.inj hout
  obtain ⟨cell, rfl, joins, hp, hd, -⟩ := hg
  obtain ⟨inst, hi, hop, hres, -⟩ := hp.isIn.creation
  refine ⟨inst, cell.value, hi, hop, hres, fun path hpath => ⟨?_, ?_⟩⟩
  · unfold Func.IsPath at hpath ⊢
    rw [hd.stage.entry]
    exact hpath.imp fun b c hc => (hd.stage.successors hp b).symm ▸ hc
  · rw [← f.trace_withDominance (some d)]
    exact hd.received_eq hp hpath

/-- A loop loads a cell, adds the argument and stores the sum; a closure captures the cell in the
end. -/
def summingLoop : List Call :=
  [.addArgument, .addBlock, .addBlock, .addBlock, .appendValue ⟨0⟩ .newRef [⟨0⟩],
    .append ⟨0⟩ (.branch ⟨1⟩) [], .appendValue ⟨1⟩ .getRef [⟨1⟩],
    .append ⟨1⟩ (.condBranch ⟨2⟩ ⟨3⟩) [⟨2⟩], .appendValue ⟨2⟩ (.binary .add) [⟨2⟩, ⟨0⟩],
    .append ⟨2⟩ .setRef [⟨1⟩, ⟨3⟩], .append ⟨2⟩ (.branch ⟨1⟩) [],
    .appendValue ⟨3⟩ (.closure 0) [⟨1⟩], .append ⟨3⟩ .ret [⟨4⟩]]

/-- Once through the loop, and on to the closure. -/
theorem Edit.summingLoop_received :
    ∃ f g : Func, f = summingLoop.foldl (fun f c => c.run f) (Func.new "f") ∧
      (promoteCell true ⟨0⟩).apply f = (.ok (.promoted (.acrossBlocks 1)), g) ∧
      f.IsPath [⟨1⟩, ⟨2⟩, ⟨1⟩, ⟨3⟩] ∧
      (g.trace none [⟨1⟩, ⟨2⟩, ⟨1⟩, ⟨3⟩]).received.map (·.1) =
        [⟨8⟩, ⟨7⟩, ⟨3⟩, ⟨6⟩, ⟨4⟩, ⟨3⟩, ⟨1⟩] ∧
      (g.trace none [⟨1⟩, ⟨2⟩, ⟨1⟩, ⟨3⟩]).received =
        (f.trace (some ⟨1⟩) [⟨1⟩, ⟨2⟩, ⟨1⟩, ⟨3⟩]).received.filter fun r =>
          g.insts.contains r.1 := by
  let f : Func := summingLoop.foldl (fun f c => c.run f) (Func.new "f")
  have hv : (verify.apply f).1 = .ok () := by decide +kernel
  have hout : ((promoteCell true ⟨0⟩).apply f).1 = .ok (.promoted (.acrossBlocks 1)) := by
    decide +kernel
  have hids : (((promoteCell true ⟨0⟩).apply f).2.trace none
      [⟨1⟩, ⟨2⟩, ⟨1⟩, ⟨3⟩]).received.map (·.1) = [⟨8⟩, ⟨7⟩, ⟨3⟩, ⟨6⟩, ⟨4⟩, ⟨3⟩, ⟨1⟩] := by
    decide +kernel
  have hpath : f.IsPath [⟨1⟩, ⟨2⟩, ⟨1⟩, ⟨3⟩] := by
    unfold Func.IsPath
    decide +kernel
  have hcell : (f.insts.get? ⟨0⟩).bind Inst.result = some ⟨1⟩ := by decide +kernel
  rcases hrun : (promoteCell true ⟨0⟩).apply f with ⟨out, g⟩
  rw [hrun] at hout hids
  obtain rfl : out = _ := hout
  obtain ⟨inst, cell, hi, -, hres, hall⟩ :=
    promoteCell_received f g ⟨"f", summingLoop, rfl⟩ hv true ⟨0⟩ _ hrun
  rw [hi, Option.bind_some, hres] at hcell
  obtain rfl := Option.some.inj hcell
  exact ⟨f, g, rfl, hrun, hpath, hids, (hall _ hpath).2⟩

end Midend
