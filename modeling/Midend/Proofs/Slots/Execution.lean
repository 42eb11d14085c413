import Mathlib
import Midend.Proofs.Edit.Built
import Midend.Proofs.Slots.Colouring

/-!
Executions in slots. A function is executed twice along the same path, once with every value at its
own place and once with the allocated values in their slots. At the end of each block the two agree
on all values that are live there, so every read gives the same.
-/

namespace Midend

/-- Where a value is kept: in its slot, or by itself. -/
def SlotAssignment.place (a : SlotAssignment) (v : ValueId) : Nat ⊕ ValueId :=
  match a.slot v with
  | some s => .inl s
  | none => .inr v

theorem SlotAssignment.place_ne {a : SlotAssignment} {v w : ValueId} (hne : v ≠ w)
    (h : ∀ s, a.slot v = some s → a.slot w ≠ some s) : a.place v ≠ a.place w := by
  unfold place
  cases hv : a.slot v with
  | none => cases hw : a.slot w <;> simp [hne]
  | some s =>
    cases hw : a.slot w with
    | none => simp
    | some t =>
      intro heq
      refine h s hv ?_
      rw [hw, Sum.inl.inj heq]

namespace Execution

variable {V S : Type} {a : SlotAssignment} {P Q : ValueId → Prop} {x : Execution ValueId V S}
  {y : Execution (Nat ⊕ ValueId) V S}

/-- Two executions that agree on the values in `P` and have read the same. -/
structure Agree (a : SlotAssignment) (P : ValueId → Prop) (x : Execution ValueId V S)
    (y : Execution (Nat ⊕ ValueId) V S) : Prop where
  state : y.state = x.state
  reads : y.reads = x.reads
  env : ∀ v, P v → y.env (a.place v) = x.env v

theorem Agree.imp (h : Agree a P x y) (hPQ : ∀ v, Q v → P v) : Agree a Q x y :=
  ⟨h.state, h.reads, fun v hv => h.env v (hPQ v hv)⟩

theorem Agree.write (h : Agree a P x y) (v : ValueId) (c : V)
    (hQ : ∀ w, Q w → w ≠ v → P w ∧ a.place v ≠ a.place w) :
    Agree a Q (x.write v c) (y.write (a.place v) c) := by
  refine ⟨h.state, h.reads, fun w hw => ?_⟩
  by_cases hv : w = v
  · subst hv
    simp [Execution.write]
  · obtain ⟨hP, hplace⟩ := hQ w hw hv
    simp only [Execution.write, Function.update_of_ne hv, Function.update_of_ne hplace.symm]
    exact h.env w hP

/-- The places that are written one after the other are apart from all others that count. -/
theorem Agree.writeAll (h : Agree a P x y) (ws : List (ValueId × V))
    (hQ : ∀ w, Q w → P w ∨ ∃ e ∈ ws, e.1 = w)
    (hapart : ∀ w, Q w → ∀ e ∈ ws, e.1 ≠ w → a.place e.1 ≠ a.place w) :
    Agree a Q (x.writeAll id ws) (y.writeAll a.place ws) := by
  induction ws generalizing P x y with
  | nil => exact h.imp fun w hw => (hQ w hw).resolve_right (by simp)
  | cons e ws ih =>
    have hstep : Agree a (fun w => Q w ∧ (P w ∨ w = e.1)) (x.write e.1 e.2)
        (y.write (a.place e.1) e.2) := by
      refine h.write e.1 e.2 fun w hw hne => ⟨hw.2.resolve_right hne, ?_⟩
      exact hapart w hw.1 e List.mem_cons_self fun heq => hne heq.symm
    refine ih hstep (fun w hw => ?_) fun w hw e' he' =>
      hapart w hw e' (List.mem_cons_of_mem _ he')
    rcases hQ w hw with hP | ⟨e', he', rfl⟩
    · exact .inl ⟨hw, .inl hP⟩
    · rcases List.mem_cons.1 he' with rfl | he'
      · exact .inl ⟨hw, .inr rfl⟩
      · exact .inr ⟨e', he', rfl⟩

theorem Agree.operands_eq (h : Agree a P x y) (m : Machine V S) {inst : Inst}
    (hread : ∀ v ∈ inst.operands, P v) :
    y.operands m a.place inst = x.operands m id inst := by
  refine List.map_congr_left fun v hv => ?_
  rw [h.state, h.env v (hread v hv)]
  rfl

theorem Agree.runInst (h : Agree a P x y) (m : Machine V S) {e : InstId × Inst}
    (hread : ∀ v ∈ e.2.operands, P v) (hQ : ∀ w, Q w → P w ∨ e.2.result = some w)
    (hapart : ∀ r, e.2.result = some r → ∀ w, Q w → w ≠ r → a.place r ≠ a.place w) :
    Agree a Q (x.runInst m id e) (y.runInst m a.place e) := by
  have hargs := h.operands_eq m hread
  have hbase : ∀ (s : S) (rs : List (Read V)), Agree a P ⟨x.env, s, rs⟩ ⟨y.env, s, rs⟩ :=
    fun _ _ => ⟨rfl, rfl, h.env⟩
  unfold Execution.runInst
  dsimp only
  rw [hargs, h.state, h.reads]
  cases hr : e.2.result with
  | none =>
    refine ⟨rfl, rfl, fun w hw => h.env w ((hQ w hw).resolve_right ?_)⟩
    rw [hr]
    exact fun heq => by cases heq
  | some r =>
    refine (hbase _ _).write r _ fun w hw hne => ⟨?_, hapart r hr w hw hne⟩
    refine (hQ w hw).resolve_right fun heq => hne ?_
    exact (Option.some.inj (hr.symm.trans heq)).symm

end Execution

structure Allocation (f : Func) (d : Dominance) (l : Liveness) (G : Interference)
    (a : SlotAssignment) : Prop where
  sound : f.Sound
  verified : f.Verified d
  liveness : l.IsOf f d
  node : ∀ v, G.contains v = true → l.isCandidate v = true
  covers : ∀ b, d.isReachable b = true → G.Covers f l b
  proper : G.Proper a.slots

/-- The values that the two executions have to agree on while `live` values are live. -/
def Liveness.Known (l : Liveness) (live : ValueId → Prop) (v : ValueId) : Prop :=
  l.isCandidate v = false ∨ (live v ∧ l.Consumed v)

namespace Allocation

variable {f : Func} {d : Dominance} {l : Liveness} {G : Interference} {a : SlotAssignment}
  {b : BlockId} {v w : ValueId} {live : OrderedSet ValueId} {e : InstId × Inst}
  {es pre : List (InstId × Inst)}

theorem apart_of_edge (h : Allocation f d l G a) (hne : v ≠ w) (he : G.Edge v w) :
    a.place v ≠ a.place w :=
  SlotAssignment.place_ne hne fun s hs => h.proper.apart v w s hne he hs

theorem apart_of_not_candidate (h : Allocation f d l G a) (hne : v ≠ w)
    (hc : l.isCandidate v = false ∨ l.isCandidate w = false) : a.place v ≠ a.place w := by
  refine SlotAssignment.place_ne hne fun s hv hw => ?_
  have hcv := h.node v (h.proper.node v s hv)
  have hcw := h.node w (h.proper.node w s hw)
  simp_all

variable {V S : Type} {x : Execution ValueId V S} {y : Execution (Nat ⊕ ValueId) V S}

theorem agree_runInst (h : Allocation f d l G a) (m : Machine V S) (hb : d.isReachable b = true)
    (hsplit : f.instsOf b = pre ++ e :: es) (hh : l.Holds b (e :: es) live)
    (hclear : G.Clear f l b live (e :: es))
    (hxy : Execution.Agree a (l.Known (· ∈ live)) x y) :
    Execution.Agree a (l.Known (· ∈ l.after f b live e)) (x.runInst m id e)
      (y.runInst m a.place e) := by
  refine hxy.runInst m (fun v hv => ?_) (fun w hw => ?_) fun r hr w hw hne => ?_
  · cases hc : l.isCandidate v with
    | false => exact .inl hc
    | true =>
      have he : e ∈ f.instsOf b := by rw [hsplit]; simp
      have hcons : l.Consumed v := by
        refine ⟨b, ?_⟩
        rw [h.liveness.dom]
        exact h.liveness.consumes_operand h.verified.dominance hb he hv
      refine .inr ⟨hh v hc hcons (.inr ⟨e, List.mem_cons_self, hv⟩) ?_, hcons⟩
      exact h.verified.operand_not_defined h.sound hb hsplit hv
  · rcases hw with hw | ⟨hw, hcons⟩
    · exact .inl (.inl hw)
    · rcases Liveness.mem_after.1 hw with hw | ⟨hr, -⟩
      · exact .inl (.inr ⟨(Liveness.mem_kept.1 hw).1, hcons⟩)
      · exact .inr hr
  · rcases hw with hw | ⟨hw, hcons⟩
    · exact h.apart_of_not_candidate (Ne.symm hne) (.inr hw)
    · cases hc : l.isCandidate r with
      | false => exact h.apart_of_not_candidate (Ne.symm hne) (.inl hc)
      | true =>
        rcases Liveness.mem_after.1 hw with hw | ⟨hr', -⟩
        · exact h.apart_of_edge (Ne.symm hne) (hclear.1 r hr hc w hw hne)
        · exact absurd (Option.some.inj (hr'.symm.trans hr)) hne

/-- The instructions of a block: at its end the two executions agree on what is live there. -/
theorem agree_insts (h : Allocation f d l G a) (m : Machine V S) (hb : d.isReachable b = true)
    (hsplit : f.instsOf b = pre ++ es) (hh : l.Holds b es live)
    (hclear : G.Clear f l b live es) (hxy : Execution.Agree a (l.Known (· ∈ live)) x y) :
    Execution.Agree a (l.Known (l.isLiveOut · b = true)) (es.foldl (Execution.runInst m id) x)
      (es.foldl (Execution.runInst m a.place) y) := by
  induction es generalizing pre live x y with
  | nil =>
    refine hxy.imp fun v hv => ?_
    cases hc : l.isCandidate v with
    | false => exact .inl hc
    | true =>
      rcases hv with hv | ⟨hout, hcons⟩
      · exact .inl (hv ▸ rfl)
      · exact .inr ⟨hh v hc hcons (.inl hout) (by simp), hcons⟩
  | cons e es ih =>
    have hnext : f.instsOf b = (pre ++ [e]) ++ es := by rw [hsplit]; simp
    refine ih hnext (h.liveness.holds_step h.sound h.verified.dominance hb hsplit hh) hclear.2 ?_
    exact h.agree_runInst m hb hsplit hh hclear hxy

theorem agree_block (h : Allocation f d l G a) (m : Machine V S) (hb : d.isReachable b = true)
    (hxy : Execution.Agree a (l.Known (· ∈ Interference.startOf f l b)) x y) :
    Execution.Agree a (l.Known (l.isLiveOut · b = true))
      ((f.instsOf b).foldl (Execution.runInst m id) x)
      ((f.instsOf b).foldl (Execution.runInst m a.place) y) := by
  obtain ⟨-, live, hlive, hclear⟩ := h.covers b hb
  have hstart := h.liveness.holds_start h.sound h.verified.dominance hb hlive
  refine h.agree_insts m hb (List.nil_append _).symm hstart hclear ?_
  refine hxy.imp fun v hv => hv.imp_right fun hv => ⟨((hlive v).1 hv.1).1, hv.2⟩

theorem mem_livePredecessors (h : Allocation f d l G a) {p c : BlockId}
    (hp : d.isReachable p = true) (hc : c ∈ f.successors p) : p ∈ d.livePredecessors c := by
  refine h.verified.dominance.mem_livePredecessors.2
    ⟨Func.mem_blockGraph_successorsOf.2 ⟨?_, ?_, hc⟩, hp⟩
  · exact Func.hasBlock_iff.2 (h.sound.linked.live_of_isReachable h.verified.dominance hp)
  · exact Func.hasBlock_iff.2 (h.sound.linked.successor_live hc)

theorem apart_of_start (h : Allocation f d l G a) (hb : d.isReachable b = true) (hne : v ≠ w)
    (hv : v ∈ Interference.startOf f l b) (hw : l.Known (· ∈ Interference.startOf f l b) w) :
    a.place v ≠ a.place w := by
  rcases hw with hw | ⟨hw, -⟩
  · exact h.apart_of_not_candidate hne (.inr hw)
  · cases hcv : l.isCandidate v with
    | false => exact h.apart_of_not_candidate hne (.inl hcv)
    | true =>
      cases hcw : l.isCandidate w with
      | false => exact h.apart_of_not_candidate hne (.inr hcw)
      | true => exact h.apart_of_edge hne ((h.covers b hb).1 v hv w hw hcv hcw hne)

theorem taken_eq (h : Allocation f d l G a) {p c : BlockId} (hp : p ∈ d.livePredecessors c)
    (hxy : Execution.Agree a (l.Known (l.isLiveOut · p = true)) x y) :
    y.taken a.place p (f.phisOf c) = x.taken id p (f.phisOf c) := by
  have hd := h.verified.dominance
  refine List.filterMap_congr fun e he => ?_
  cases hv : e.2.source p with
  | none => rfl
  | some v =>
    have hknown : l.Known (l.isLiveOut · p = true) v := by
      cases hc : l.isCandidate v with
      | false => exact .inl hc
      | true =>
        obtain ⟨hcons, hout⟩ := h.liveness.liveOut_of_source h.sound hd hc
          (hd.isReachable_of_mem hp) (hd.mem_livePredecessors.1 hp).2 he hv
        exact .inr ⟨hout, hcons⟩
    simp only [Option.map_some, hxy.env v hknown]
    rfl

theorem agree_edge (h : Allocation f d l G a) {p c : BlockId} (hp : p ∈ d.livePredecessors c)
    (hxy : Execution.Agree a (l.Known (l.isLiveOut · p = true)) x y) :
    Execution.Agree a (l.Known (· ∈ Interference.startOf f l c)) (x.runPhis id p (f.phisOf c))
      (y.runPhis a.place p (f.phisOf c)) := by
  have hd := h.verified.dominance
  have hc := hd.isReachable_of_mem hp
  have hpred := hd.mem_livePredecessors.1 hp
  unfold Execution.runPhis
  dsimp only
  rw [h.taken_eq hp hxy, hxy.reads]
  have hbase : Execution.Agree a (l.Known (l.isLiveOut · p = true))
      { x with reads := ((x.taken id p (f.phisOf c)).map fun t => .phi t.1.1 t.2).reverse ++ x.reads }
      { y with reads := ((x.taken id p (f.phisOf c)).map fun t => .phi t.1.1 t.2).reverse ++
        x.reads } := ⟨hxy.state, rfl, hxy.env⟩
  refine hbase.writeAll _ (fun w hw => ?_) fun w hw e he hne => ?_
  · cases hcand : l.isCandidate w with
    | false => exact .inl (.inl hcand)
    | true =>
      obtain ⟨hstart, hcons⟩ := hw.resolve_left (by simp [hcand])
      rcases Interference.mem_startOf_iff.1 hstart with hin | ⟨e, he, rfl⟩ | ⟨rfl, harg⟩
      · exact .inl (.inr ⟨h.liveness.liveOut_of_liveIn h.sound hd hcons hin hp, hcons⟩)
      · right
        obtain ⟨data, hdata, hmem, hphi⟩ := Func.mem_phisOf.1 he
        have hkey : p ∈ f.predecessors c ∧ d.isReachable p = true := by
          obtain ⟨hlive, -, hsucc⟩ := Func.mem_blockGraph_successorsOf.1 hpred.1
          refine ⟨?_, hpred.2⟩
          rw [Func.predecessors, List.mem_filter, Func.mem_blockIds, List.contains_iff_mem]
          exact ⟨hlive, hsucc⟩
        obtain ⟨v, hv⟩ := (h.verified.keys c data e.1 e.2 p hc hdata hmem hphi).2 hkey
        refine ⟨(e.2.result, x.env v), List.mem_map.2 ⟨(e, x.env v), ?_, rfl⟩, rfl⟩
        exact List.mem_filterMap.2 ⟨e, he, by rw [hv]; rfl⟩
      · exact .inl (.inr
          ⟨h.liveness.liveOut_of_argument h.sound hd hcand hcons harg hp, hcons⟩)
  · obtain ⟨t, ht, rfl⟩ := List.mem_map.1 he
    obtain ⟨phi, hphi, hsome⟩ := List.mem_filterMap.1 ht
    obtain ⟨v, -, rfl⟩ := Option.map_eq_some_iff.1 hsome
    exact h.apart_of_start hc hne (Interference.mem_startOf_iff.2 (.inr (.inl ⟨phi, hphi, rfl⟩))) hw

/-- At the start: every slot is still undefined, like the values that are not yet computed. -/
theorem agree_start (h : Allocation f d l G a) (undefined : V) (atom : ValueId → V) (s : S) :
    Execution.Agree a (l.Known (· ∈ Interference.startOf f l f.entry))
      (Execution.writeAll id (f.arguments.map fun v => (v, atom v))
        ⟨f.initial undefined atom, s, []⟩)
      (Execution.writeAll a.place (f.arguments.map fun v => (v, atom v))
        ⟨Sum.elim (fun _ => undefined) (f.initial undefined atom), s, []⟩) := by
  have hd := h.verified.dominance
  have hbase : Execution.Agree a (fun _ => True) ⟨f.initial undefined atom, s, []⟩
      ⟨Sum.elim (fun _ => undefined) (f.initial undefined atom), s, []⟩ := by
    refine ⟨rfl, rfl, fun v _ => ?_⟩
    unfold SlotAssignment.place
    cases hv : a.slot v with
    | none => rfl
    | some slot =>
      obtain ⟨home, isArgument, val, hval, -, hblock, -⟩ :=
        h.liveness.isCandidate_iff.1 (h.node v (h.proper.node v slot hv))
      simp only [Sum.elim_inl, Func.initial, hval, Option.map_some]
      rcases Func.defBlock_cases hval hblock with ⟨i, inst, hdef, -⟩ | ⟨p, phi, hdef, -⟩ |
        ⟨n, hdef, -⟩
      all_goals rw [hdef]
  refine hbase.writeAll _ (fun w _ => .inl trivial) fun w hw e he hne => ?_
  obtain ⟨v, hv, rfl⟩ := List.mem_map.1 he
  exact h.apart_of_start hd.entry_isReachable hne
    (Interference.mem_startOf_iff.2 (.inr (.inr ⟨rfl, hv⟩))) hw

theorem reads_follow (h : Allocation f d l G a) (m : Machine V S) (path : List BlockId)
    (hb : d.isReachable b = true) (hpath : (b :: path).IsChain fun b c => c ∈ f.successors b)
    (hxy : Execution.Agree a (l.Known (l.isLiveOut · b = true)) x y) :
    (Execution.follow f m a.place b path y).reads = (Execution.follow f m id b path x).reads := by
  induction path generalizing b x y with
  | nil => exact hxy.reads
  | cons c path ih =>
    obtain ⟨hc, hpath⟩ := List.isChain_cons_cons.1 hpath
    have hp := h.mem_livePredecessors hb hc
    have hreach := h.verified.dominance.isReachable_of_mem hp
    exact ih hreach hpath (h.agree_block m hreach (h.agree_edge hp hxy))

end Allocation

theorem Edit.allocateSlots_ok {f : Func} (hf : f.Sound) (hv : (verify.apply f).1 = .ok ())
    (coalesce : Bool) :
    ∃ d l G, Allocation f d l G (G.allocate coalesce) ∧
      ((allocateSlots coalesce).apply f).1 = .ok (G.allocate coalesce) := by
  obtain ⟨d, l, G, hverified, hl, -, hnode, hcovers, hinter⟩ := interference_ok hf hv
  refine ⟨d, l, G, ⟨hf, hverified, hl, hnode, hcovers, G.allocate_proper coalesce⟩, ?_⟩
  unfold allocateSlots
  rw [apply_bind, hinter]
  rfl

/-- Executing a verified function with its values in slots reads what executing it with every value
at its own place reads, along every path, whatever the instructions compute. -/
theorem allocateSlots_same_reads (f : Func) (hf : f.Built) (hv : (Edit.verify.apply f).1 = .ok ())
    (coalesce : Bool) :
    ∃ a, ((Edit.allocateSlots coalesce).apply f).1 = .ok a ∧
      ∀ (V S : Type) (m : Machine V S) (undefined : V) (atom : ValueId → V) (s : S)
        (path : List BlockId), f.IsPath path →
        (Execution.run f m a.place atom
          ⟨Sum.elim (fun _ => undefined) (f.initial undefined atom), s, []⟩ path).reads =
          (Execution.run f m id atom ⟨f.initial undefined atom, s, []⟩ path).reads := by
  obtain ⟨d, l, G, h, hrun⟩ := Edit.allocateSlots_ok hf.sound hv coalesce
  refine ⟨_, hrun, fun V S m undefined atom s path hpath => ?_⟩
  have hentry := h.verified.dominance.entry_isReachable
  exact h.reads_follow m path hentry hpath
    (h.agree_block m hentry (h.agree_start undefined atom s))

/-- A loop that adds its argument to a constant until it leaves with the sum. -/
def countingLoop : List Call :=
  [.addArgument, .constant ⟨0⟩, .addBlock, .addBlock, .append ⟨0⟩ (.branch ⟨1⟩) [], .addPhi ⟨1⟩,
    .appendValue ⟨1⟩ (.binary .add) [⟨2⟩, ⟨0⟩], .append ⟨1⟩ (.condBranch ⟨1⟩ ⟨2⟩) [⟨3⟩],
    .append ⟨2⟩ .ret [⟨3⟩], .setPhiSource ⟨0⟩ ⟨0⟩ ⟨1⟩, .setPhiSource ⟨0⟩ ⟨1⟩ ⟨3⟩]

/-- Twice round the loop, with the sum and the phi in one slot. -/
theorem countingLoop_same_reads :
    ∃ f a, f.Built ∧ (Edit.verify.apply f).1 = .ok () ∧
      ((Edit.allocateSlots true).apply f).1 = .ok a ∧ a.slot ⟨2⟩ = some 1 ∧ a.slot ⟨3⟩ = some 1 ∧
      f.IsPath [⟨1⟩, ⟨1⟩, ⟨2⟩] ∧
      (Execution.run f ⟨fun _ _ _ n => n, fun _ _ ns s => (ns.sum, s)⟩ a.place (fun _ => 7)
        ⟨Sum.elim (fun _ => 0) (f.initial 0 fun _ => 7), (), []⟩ [⟨1⟩, ⟨1⟩, ⟨2⟩]).reads =
        (Execution.run f ⟨fun _ _ _ n => n, fun _ _ ns s => (ns.sum, s)⟩ id (fun _ => 7)
          ⟨f.initial 0 fun _ => 7, (), []⟩ [⟨1⟩, ⟨1⟩, ⟨2⟩]).reads := by
  let f : Func := countingLoop.foldl (fun f c => c.run f) (Func.new "f")
  have hf : f.Built := ⟨"f", countingLoop, rfl⟩
  have hv : (Edit.verify.apply f).1 = .ok () := by decide +kernel
  have hpath : f.IsPath [⟨1⟩, ⟨1⟩, ⟨2⟩] := by
    unfold Func.IsPath
    decide +kernel
  have hslots : (((Edit.allocateSlots true).apply f).1.toOption.map fun a =>
      (a.slot ⟨2⟩, a.slot ⟨3⟩)) = some (some 1, some 1) := by
    unfold f
    cbv
  obtain ⟨a, ha, hreads⟩ := allocateSlots_same_reads f hf hv true
  rw [ha] at hslots
  obtain ⟨hphi, hsum⟩ := Prod.mk.inj (Option.some.inj hslots)
  exact ⟨f, a, hf, hv, ha, hphi, hsum, hpath, hreads Nat Unit _ 0 (fun _ => 7) () _ hpath⟩

end Midend
