import Midend.Proofs.Promotion.Simulation

/-!
Captures of promoted cells. Each execution of a creation makes a fresh instance of its cell. Two
instructions that get the same instance are connected by a way that does not lead into the block of
the creation. As a promoted cell has no use that can follow a capture by another instruction, only
the capture itself can get the instance again, and it does so where it stands on a cycle beside the
creation.
-/

namespace Midend

open Cell

/-- An edge that does not lead to `a`. -/
def Func.EdgeBeside (f : Func) (a b c : BlockId) : Prop := c ∈ f.successors b ∧ c ≠ a

/-- A closure that received the `n`-th instance of the cell of a creation. -/
def Func.Captures (f : Func) (i : InstId) (n : Nat) (r : InstId × List Term) : Prop :=
  ∃ inst proto, f.insts.get? r.1 = some inst ∧ inst.opcode = .closure proto ∧ .cell i n ∈ r.2

/-- Control can come from one site to another one and enters `a` on no edge. -/
def Site.Onward (f : Func) (a : BlockId) (s t : Site) : Prop :=
  (s.block = t.block ∧ s.done < t.done) ∨
    Relation.TransGen (f.EdgeBeside a) s.block t.block

def Cell.UsedAt (cell : Cell) (f : Func) (i : InstId) (s : Site) : Prop :=
  ∃ inst, (f.instsOf s.block)[s.done]? = some (i, inst) ∧ cell.value ∈ inst.operands

/-- Two instructions with the same instance of the cell: the later one comes on from the earlier
one. -/
def Cell.Follows (cell : Cell) (f : Func) (later earlier : InstId × List Term) : Prop :=
  ∀ n, .cell cell.creation n ∈ earlier.2 → .cell cell.creation n ∈ later.2 →
    ∃ s t, cell.UsedAt f earlier.1 s ∧ cell.UsedAt f later.1 t ∧ s.Onward f cell.home t

section Trace

variable {f : Func} {copied : Option ValueId}

def Func.lastOf (f : Func) (path : List BlockId) : BlockId :=
  (f.entry :: path).getLast (List.cons_ne_nil _ _)

theorem Func.lastOf_concat (f : Func) (path : List BlockId) (c : BlockId) :
    f.lastOf (path ++ [c]) = c := by
  simp [lastOf]

theorem Func.isPath_concat {path : List BlockId} {c : BlockId} :
    f.IsPath (path ++ [c]) ↔ f.IsPath path ∧ c ∈ f.successors (f.lastOf path) := by
  rw [IsPath, ← List.cons_append, List.isChain_append, lastOf]
  simp [IsPath, List.getLast?_eq_some_getLast]

theorem Func.trace_concat (f : Func) (copied : Option ValueId) (path : List BlockId) (c : BlockId) :
    f.trace copied (path ++ [c]) = (f.instsOf c).foldl (Execution.runInst (symbolic copied) id)
      ((f.trace copied path).runPhis id (f.lastOf path) (f.phisOf c)) := by
  have hfollow : ∀ path b (x : Execution ValueId Term Memory),
      Execution.follow f (symbolic copied) id b (path ++ [c]) x =
        (f.instsOf c).foldl (Execution.runInst (symbolic copied) id)
          ((Execution.follow f (symbolic copied) id b path x).runPhis id
            ((b :: path).getLast (List.cons_ne_nil _ _)) (f.phisOf c)) := by
    intro path
    induction path with
    | nil => exact fun b x => rfl
    | cons b' path ih => exact fun b x => ih b' _
  exact hfollow path f.entry _

theorem Func.trace_last (f : Func) (copied : Option ValueId) (path : List BlockId) :
    ∃ y, f.trace copied path =
      (f.instsOf (f.lastOf path)).foldl (Execution.runInst (symbolic copied) id) y := by
  rcases path.eq_nil_or_concat' with rfl | ⟨path, c, rfl⟩
  · exact ⟨_, rfl⟩
  · rw [trace_concat, lastOf_concat]
    exact ⟨_, rfl⟩

theorem Func.exists_isPath {b : BlockId} (hb : f.Reachable b) :
    ∃ path, f.IsPath path ∧ f.lastOf path = b := by
  refine hb.induction_on (motive := fun b => ∃ path, f.IsPath path ∧ f.lastOf path = b)
    ⟨[], List.isChain_singleton _, rfl⟩ ?_
  rintro _ c - ⟨path, hpath, rfl⟩ hc
  exact ⟨path ++ [c], isPath_concat.2 ⟨hpath, (mem_blockGraph_successorsOf.1 hc).2.2⟩,
    lastOf_concat ..⟩

/-- What holds at the start and is kept by instructions and edges holds at the end of a path. -/
theorem Func.trace_induction {P : Site → Execution ValueId Term Memory → Prop}
    (start : P ⟨f.entry, 0⟩ f.start)
    (inst : ∀ b k x e, P ⟨b, k⟩ x → (f.instsOf b)[k]? = some e →
      P ⟨b, k + 1⟩ (x.runInst (symbolic copied) id e))
    (edge : ∀ b c x, P (.exit f b) x → c ∈ f.successors b →
      P ⟨c, 0⟩ (x.runPhis id b (f.phisOf c)))
    {path : List BlockId} (hpath : f.IsPath path) :
    P (.exit f (f.lastOf path)) (f.trace copied path) := by
  have hblock : ∀ b x, P ⟨b, 0⟩ x →
      P (.exit f b) ((f.instsOf b).foldl (Execution.runInst (symbolic copied) id) x) := by
    intro b x hx
    -- Within a block the induction is on the instructions that are left.
    suffices hgo : ∀ rest done x, f.instsOf b = done ++ rest → P ⟨b, done.length⟩ x →
        P (.exit f b) (rest.foldl (Execution.runInst (symbolic copied) id) x) from hgo _ [] x rfl hx
    intro rest
    induction rest with
    | nil =>
      intro done x hsplit hx
      rw [Site.exit, hsplit, List.append_nil]
      exact hx
    | cons e rest ih =>
      intro done x hsplit hx
      refine ih (done ++ [e]) _ (by simp [hsplit]) ?_
      rw [List.length_append]
      exact inst b done.length x e hx (by simp [hsplit])
  induction path using List.reverseRecOn with
  | nil => exact hblock _ _ start
  | append_singleton path c ih =>
    obtain ⟨hpath, hc⟩ := isPath_concat.1 hpath
    rw [trace_concat, lastOf_concat]
    exact hblock _ _ (edge _ _ _ (ih hpath) hc)

theorem Execution.operands_symbolic_none (x : Execution ValueId Term Memory) (inst : Inst) :
    x.operands (symbolic none) id inst = inst.operands.map x.env := by
  refine List.map_congr_left fun v _ => ?_
  unfold symbolic
  dsimp only
  split <;> simp

end Trace

/-- What is known of the instances of a cell when control is at a site. The `j`-th instruction of its
home is the creation. -/
structure Cell.Watched (cell : Cell) (f : Func) (j : Nat) (t : Site)
    (x : Execution ValueId Term Memory) : Prop where
  reachable : f.Reachable t.block
  isSealed : cell.Sealed x
  made : Site.Before f ⟨cell.home, j + 1⟩ t → ∃ n, x.env cell.value = .cell cell.creation n
  latest : ∀ n, x.env cell.value = .cell cell.creation n → n + 1 = x.state.count cell.creation
  -- Only in front of its next creation the latest instance can be out of reach of its users.
  since : ∀ r ∈ x.received, ∀ n, .cell cell.creation n ∈ r.2 →
    n < x.state.count cell.creation ∧ ∃ s, cell.UsedAt f r.1 s ∧
      (n + 1 = x.state.count cell.creation →
        s.Onward f cell.home t ∨ (t.block = cell.home ∧ t.done ≤ j))
  follows : x.received.Pairwise (cell.Follows f)

namespace Promoting

variable {f : Func} {d : Dominance} {cell : Cell} {joins : Joins} {b c : BlockId} {j k : Nat}
  {s t : Site} {x : Execution ValueId Term Memory} {e : InstId × Inst} {created : Inst}

theorem usedAt_ne_creation (h : Promoting f d cell joins) {i : InstId}
    (hs : cell.UsedAt f i s) : i ≠ cell.creation := by
  obtain ⟨inst, hk, hmem⟩ := hs
  obtain ⟨-, -, -, hi⟩ := Func.mem_instsOf.1 (List.mem_of_getElem? hk)
  intro heq
  have hnew : inst.opcode = .newRef := h.creation_opcode hi heq
  rcases h.access hi hmem with ⟨hop, -⟩ | ⟨hop, -⟩ | ⟨proto, hop⟩
  all_goals simp [hnew] at hop

theorem creation_before_use (h : Promoting f d cell joins)
    (hj : (f.instsOf cell.home)[j]? = some (cell.creation, created)) {i : InstId}
    (hs : cell.UsedAt f i s) : Site.Before f ⟨cell.home, j + 1⟩ s := by
  obtain ⟨inst, hk, hmem⟩ := hs
  obtain ⟨-, -, -, hi⟩ := Func.mem_instsOf.1 (List.mem_of_getElem? hj)
  exact (h.available_user hk hmem).2 _ (.inst hj ((h.creation_iff hi).1 rfl))

theorem receives_cell (hx : cell.Watched f j ⟨b, k⟩ x) (hk : (f.instsOf b)[k]? = some e) {n : Nat}
    (hn : .cell cell.creation n ∈ x.operands (symbolic none) id e.2) :
    cell.UsedAt f e.1 ⟨b, k⟩ ∧ n + 1 = x.state.count cell.creation := by
  rw [Execution.operands_symbolic_none] at hn
  obtain ⟨v, hv, heq⟩ := List.mem_map.1 hn
  obtain rfl : v = cell.value := by
    by_contra hne
    exact hx.isSealed.other v n hne heq
  exact ⟨⟨e.2, hk, hv⟩, hx.latest n heq⟩

theorem created_inst (h : Promoting f d cell joins) (hi : f.insts.get? e.1 = some e.2)
    (heq : e.1 = cell.creation) :
    (x.runInst (symbolic none) id e).env cell.value =
        .cell cell.creation (x.state.count cell.creation) ∧
      (x.runInst (symbolic none) id e).state.count cell.creation =
        x.state.count cell.creation + 1 := by
  rw [Execution.env_runInst, if_pos ((h.creation_iff hi).1 heq), Execution.state_runInst,
    h.creation_opcode hi heq, heq]
  exact ⟨rfl, Function.update_self ..⟩

theorem uncreated_inst (h : Promoting f d cell joins) (hi : f.insts.get? e.1 = some e.2)
    (hne : e.1 ≠ cell.creation) :
    (x.runInst (symbolic none) id e).env cell.value = x.env cell.value ∧
      (x.runInst (symbolic none) id e).state.count cell.creation =
        x.state.count cell.creation := by
  rw [Execution.env_runInst, if_neg fun hr => hne ((h.creation_iff hi).2 hr),
    Execution.state_runInst, symbolic_step_count (Ne.symm hne)]
  exact ⟨rfl, rfl⟩

theorem eq_creation_of_place (hj : (f.instsOf cell.home)[j]? = some (cell.creation, created))
    (hk : (f.instsOf b)[k]? = some e) (hb : b = cell.home) (hjk : k = j) :
    e.1 = cell.creation := by
  subst hb hjk
  rw [hj] at hk
  exact (congrArg Prod.fst (Option.some.inj hk)).symm

/-- Behind an instruction the users of each instance are as they were, and the instruction itself
may be one more. -/
theorem since_inst (h : Promoting f d cell joins)
    (hj : (f.instsOf cell.home)[j]? = some (cell.creation, created))
    (hx : cell.Watched f j ⟨b, k⟩ x) (hk : (f.instsOf b)[k]? = some e) {r : InstId × List Term}
    (hr : r ∈ (x.runInst (symbolic none) id e).received) {n : Nat}
    (hn : .cell cell.creation n ∈ r.2) :
    n < (x.runInst (symbolic none) id e).state.count cell.creation ∧ ∃ s, cell.UsedAt f r.1 s ∧
      (n + 1 = (x.runInst (symbolic none) id e).state.count cell.creation →
        s.Onward f cell.home ⟨b, k + 1⟩ ∨ (b = cell.home ∧ k + 1 ≤ j)) := by
  obtain ⟨-, -, -, hi⟩ := Func.mem_instsOf.1 (List.mem_of_getElem? hk)
  rw [Execution.received_runInst] at hr
  rcases List.mem_cons.1 hr with rfl | hr
  · obtain ⟨hused, hlatest⟩ := receives_cell hx hk hn
    rw [(h.uncreated_inst hi (h.usedAt_ne_creation hused)).2]
    exact ⟨by omega, _, hused, fun _ => .inl (.inl ⟨rfl, Nat.lt_succ_self k⟩)⟩
  · obtain ⟨hlt, s, hused, hsince⟩ := hx.since r hr n hn
    by_cases heq : e.1 = cell.creation
    · rw [(h.created_inst hi heq).2]
      exact ⟨by omega, s, hused, fun hn => absurd hn (by omega)⟩
    · rw [(h.uncreated_inst hi heq).2]
      refine ⟨hlt, s, hused, fun hn => ?_⟩
      rcases hsince hn with (⟨hb, hdone⟩ | hway) | ⟨hb, hdone⟩
      · exact .inl (.inl ⟨hb, Nat.lt_succ_of_lt hdone⟩)
      · exact .inl (.inr hway)
      · exact .inr ⟨hb, Nat.lt_of_le_of_ne hdone fun hkj => heq (eq_creation_of_place hj hk hb hkj)⟩

theorem watched_inst (h : Promoting f d cell joins)
    (hj : (f.instsOf cell.home)[j]? = some (cell.creation, created))
    (hx : cell.Watched f j ⟨b, k⟩ x) (hk : (f.instsOf b)[k]? = some e) :
    cell.Watched f j ⟨b, k + 1⟩ (x.runInst (symbolic none) id e) := by
  obtain ⟨-, -, -, hi⟩ := Func.mem_instsOf.1 (List.mem_of_getElem? hk)
  refine ⟨hx.reachable, h.sealed_inst hx.isSealed hi, fun hbefore => ?_, fun n hn => ?_,
    fun r hr n hn => h.since_inst hj hx hk hr hn, ?_⟩
  · by_cases heq : e.1 = cell.creation
    · exact ⟨_, (h.created_inst hi heq).1⟩
    · rcases hbefore.of_succ with hsite | hbefore
      · obtain ⟨hb, hjk⟩ := Site.mk.inj hsite
        exact absurd (eq_creation_of_place hj hk hb.symm (Nat.succ.inj hjk).symm) heq
      · rw [(h.uncreated_inst hi heq).1]
        exact hx.made hbefore
  · by_cases heq : e.1 = cell.creation
    · obtain ⟨henv, hcount⟩ := h.created_inst (x := x) hi heq
      rw [henv] at hn
      rw [hcount, (Term.cell.inj hn).2]
    · obtain ⟨henv, hcount⟩ := h.uncreated_inst (x := x) hi heq
      rw [henv] at hn
      rw [hcount]
      exact hx.latest n hn
  · rw [Execution.received_runInst, List.pairwise_cons]
    refine ⟨fun r hr n hearlier hlater => ?_, hx.follows⟩
    obtain ⟨hused, hlatest⟩ := receives_cell hx hk hlater
    obtain ⟨-, s, hs, hsince⟩ := hx.since r hr n hearlier
    refine ⟨s, ⟨b, k⟩, hs, hused, (hsince hlatest).resolve_right ?_⟩
    rintro ⟨hb, hdone⟩
    have hle := (h.creation_before_use hj hused).le_done hb.symm
    exact absurd (Nat.le_trans hle hdone) (Nat.not_succ_le_self j)

theorem watched_edge (h : Promoting f d cell joins)
    (hj : (f.instsOf cell.home)[j]? = some (cell.creation, created))
    (hx : cell.Watched f j (.exit f b) x) (hc : c ∈ f.successors b) :
    cell.Watched f j ⟨c, 0⟩ (x.runPhis id b (f.phisOf c)) := by
  have hedge := h.sound.linked.edge_of_successor h.verified.dominance hx.reachable hc
  have henv : (x.runPhis id b (f.phisOf c)).env cell.value = x.env cell.value :=
    Execution.env_runPhis_of_ne fun e he => h.phi_ne he
  obtain ⟨hlt, -⟩ := List.getElem?_eq_some_iff.1 hj
  refine ⟨hx.reachable.step hedge, h.sealed_phis hx.isSealed, fun hbefore => ?_, fun n hn => ?_,
    fun r hr n hn => ?_, ?_⟩
  · rw [henv]
    refine hx.made ((hbefore.of_edge hlt hx.reachable hedge).resolve_left fun heq => ?_)
    simp at heq
  · rw [henv] at hn
    rw [Execution.state_runPhis]
    exact hx.latest n hn
  · rw [Execution.received_runPhis] at hr
    rw [Execution.state_runPhis]
    obtain ⟨hcount, s, hused, hsince⟩ := hx.since r hr n hn
    refine ⟨hcount, s, hused, fun hn => ?_⟩
    by_cases heq : c = cell.home
    · exact .inr ⟨heq, Nat.zero_le j⟩
    · rcases hsince hn with (⟨hb, -⟩ | hway) | ⟨hb, hdone⟩
      · exact .inl (.inr (.single ⟨hb ▸ hc, heq⟩))
      · exact .inl (.inr (hway.tail ⟨hc, heq⟩))
      · obtain rfl : b = cell.home := hb
        exact absurd hlt (Nat.not_lt.2 hdone)
  · rw [Execution.received_runPhis]
    exact hx.follows

theorem watched_trace (h : Promoting f d cell joins)
    (hj : (f.instsOf cell.home)[j]? = some (cell.creation, created)) {path : List BlockId}
    (hpath : f.IsPath path) :
    cell.Watched f j (.exit f (f.lastOf path)) (f.trace none path) := by
  refine Func.trace_induction ?_ (fun b k x e hx hk => h.watched_inst hj hx hk)
    (fun b c x hx hc => h.watched_edge hj hx hc) hpath
  refine ⟨.refl _, ?_, fun hbefore => ?_, fun n hn => ?_, fun r hr => ?_, ?_⟩
  · exact h.sealed_of_reached .start
  · rcases hbefore with ⟨-, hle⟩ | hd
    · exact absurd hle (Nat.not_succ_le_zero _)
    · exact absurd hd.2.eq_root hd.1
  · exact absurd hn (start_ne_cell f _ _ n)
  · simp [Execution.received, Func.start] at hr
  · simp [Execution.received, Func.start]

theorem env_foldl_of_ne (h : Promoting f d cell joins) (hb : b ≠ cell.home)
    {insts : List (InstId × Inst)} (hsub : ∀ e ∈ insts, e ∈ f.instsOf b) :
    (insts.foldl (Execution.runInst (symbolic none) id) x).env cell.value = x.env cell.value := by
  induction insts generalizing x with
  | nil => rfl
  | cons e insts ih =>
    obtain ⟨he, hrest⟩ := List.forall_mem_cons.1 hsub
    rw [List.foldl_cons, ih hrest, Execution.env_runInst, if_neg fun hr => ?_]
    obtain ⟨-, -, -, hi⟩ := Func.mem_instsOf.1 he
    obtain ⟨inst, hinst, -, -, -, hblock⟩ := h.isIn.creation
    have heq := (h.creation_iff hi).2 hr
    rw [heq, hinst] at hi
    exact hb (by rw [← h.sound.linked.block_of_instsOf he, ← Option.some.inj hi, hblock])

theorem received_foldl (insts : List (InstId × Inst)) (x : Execution ValueId Term Memory) :
    ∃ new, (insts.foldl (Execution.runInst (symbolic none) id) x).received =
      new ++ x.received := by
  induction insts generalizing x with
  | nil => exact ⟨[], rfl⟩
  | cons e insts ih =>
    obtain ⟨new, hnew⟩ := ih (x.runInst (symbolic none) id e)
    exact ⟨new ++ [(e.1, x.operands (symbolic none) id e.2)], by
      rw [List.foldl_cons, hnew, Execution.received_runInst, List.append_assoc]
      rfl⟩

theorem receives_of_usedAt (h : Promoting f d cell joins) (hb : b ≠ cell.home) {i : InstId}
    (hs : cell.UsedAt f i ⟨b, k⟩) (x : Execution ValueId Term Memory) :
    ∃ new args, ((f.instsOf b).foldl (Execution.runInst (symbolic none) id) x).received =
        new ++ x.received ∧ (i, args) ∈ new ∧ x.env cell.value ∈ args := by
  obtain ⟨inst, hk, hmem⟩ := hs
  obtain ⟨hlt, hget⟩ := List.getElem?_eq_some_iff.1 hk
  have hsplit : f.instsOf b = (f.instsOf b).take k ++ (i, inst) :: (f.instsOf b).drop (k + 1) := by
    rw [← hget, List.getElem_cons_drop, List.take_append_drop]
  obtain ⟨y, hy⟩ : ∃ y, ((f.instsOf b).take k).foldl (Execution.runInst (symbolic none) id) x = y :=
    ⟨_, rfl⟩
  have henv : y.env cell.value = x.env cell.value :=
    hy ▸ h.env_foldl_of_ne hb fun e he => List.mem_of_mem_take he
  obtain ⟨before, hbefore⟩ := received_foldl ((f.instsOf b).take k) x
  obtain ⟨after, hafter⟩ := received_foldl ((f.instsOf b).drop (k + 1))
    (y.runInst (symbolic none) id (i, inst))
  refine ⟨after ++ (i, y.operands (symbolic none) id inst) :: before,
    y.operands (symbolic none) id inst, ?_, by simp, ?_⟩
  · rw [hsplit, List.foldl_append, hy, List.foldl_cons, hafter, Execution.received_runInst, ← hy,
      hbefore, hy]
    simp
  · rw [Execution.operands_symbolic_none, ← henv]
    exact List.mem_map.2 ⟨_, hmem, rfl⟩

/-- Along a way beside the creation the instance stays, and nothing that was received is lost. -/
theorem trace_beside (h : Promoting f d cell joins) {path : List BlockId} (hpath : f.IsPath path)
    (hway : Relation.ReflTransGen (f.EdgeBeside cell.home) (f.lastOf path) c) :
    ∃ path' new, f.IsPath path' ∧ f.lastOf path' = c ∧
      (f.trace none path').env cell.value = (f.trace none path).env cell.value ∧
      (f.trace none path').received = new ++ (f.trace none path).received := by
  induction hway with
  | refl => exact ⟨path, [], hpath, rfl, rfl, rfl⟩
  | @tail b c _ hstep ih =>
    obtain ⟨path', new, hpath', rfl, henv, hreceived⟩ := ih
    obtain ⟨more, hmore⟩ := received_foldl (f.instsOf c)
      ((f.trace none path').runPhis id (f.lastOf path') (f.phisOf c))
    refine ⟨path' ++ [c], more ++ new, Func.isPath_concat.2 ⟨hpath', hstep.1⟩, f.lastOf_concat ..,
      ?_, ?_⟩
    · rw [Func.trace_concat, h.env_foldl_of_ne hstep.2 fun e he => he,
        Execution.env_runPhis_of_ne fun e he => h.phi_ne he, henv]
    · rw [Func.trace_concat, hmore, Execution.received_runPhis, hreceived, List.append_assoc]

/-- A user on a cycle beside the creation receives one instance twice. -/
theorem receives_again (h : Promoting f d cell joins)
    (hj : (f.instsOf cell.home)[j]? = some (cell.creation, created)) {i : InstId}
    (hs : cell.UsedAt f i ⟨b, k⟩) (hcycle : Relation.TransGen (f.EdgeBeside cell.home) b b) :
    ∃ path n new old args args', f.IsPath path ∧ (f.trace none path).received = new ++ old ∧
      (i, args) ∈ new ∧ (i, args') ∈ old ∧ .cell cell.creation n ∈ args ∧
      .cell cell.creation n ∈ args' := by
  have ⟨_, hk, hmem⟩ := hs
  obtain ⟨c, hround, hclose⟩ := Relation.TransGen.tail'_iff.1 hcycle
  have hb : b ≠ cell.home := hclose.2
  -- On a path to the user it receives an instance.
  obtain ⟨path, hpath, rfl⟩ := Func.exists_isPath (h.available_user hk hmem).1
  obtain ⟨n, hn⟩ := (h.watched_trace hj hpath).made ((h.creation_before_use hj hs).trans
    (.inl ⟨rfl, Nat.le_of_lt (List.getElem?_eq_some_iff.1 hk).1⟩))
  obtain ⟨y, hy⟩ := f.trace_last none path
  obtain ⟨old, args', hold, hargs', hin⟩ := h.receives_of_usedAt hb hs y
  have henv : y.env cell.value = .cell cell.creation n := by
    rw [← hn, hy, h.env_foldl_of_ne hb fun e he => he]
  -- Around the cycle it receives the same one.
  obtain ⟨path', mid, hpath', rfl, henv', hreceived⟩ := h.trace_beside hpath hround
  obtain ⟨new, args, hnew, hargs, hin'⟩ := h.receives_of_usedAt hb hs
    ((f.trace none path').runPhis id (f.lastOf path') (f.phisOf (f.lastOf path)))
  rw [Execution.env_runPhis_of_ne fun e he => h.phi_ne he, henv', hn] at hin'
  rw [Execution.received_runPhis, hreceived, hy, hold] at hnew
  refine ⟨path' ++ [f.lastOf path], n, new, mid ++ (old ++ y.received), args, args',
    Func.isPath_concat.2 ⟨hpath', hclose.1⟩, ?_, hargs, by simp [hargs'], hin', henv ▸ hin⟩
  rw [Func.trace_concat, hnew]

end Promoting

namespace Func

open Verdict

variable {f : Func} {d : Dominance} {b c : BlockId} {k : Nat} {i : InstId} {inst : Inst}

theorem Linked.locate_eq (h : f.Linked fun _ => False)
    (hk : (f.instsOf b)[k]? = some (i, inst)) : f.locate i = .ok (b, k) := by
  obtain ⟨data, hdata, hget, hi⟩ := h.getElem?_instsOf.1 hk
  obtain ⟨hlt, hval⟩ := List.getElem?_eq_some_iff.1 hget
  have hpos : data.position i = some k := by
    rw [Block.position, List.idxOf?_eq_some_iff]
    refine ⟨hlt, hval, fun m hm heq => ?_⟩
    have := (List.Nodup.getElem_inj_iff (h.insts_nodup b data hdata)).1 (heq.trans hval.symm)
    omega
  obtain rfl : inst.block = b := h.block_of_instsOf (List.mem_of_getElem? hk)
  refine bind_eq_ok.2 ⟨inst, inst_eq_ok.2 hi, bind_eq_ok.2 ⟨data, block_eq_ok.2 hdata, ?_⟩⟩
  rw [hpos]
  rfl

/-- The search behind a block finds what control can come to on at least one edge. -/
theorem Linked.canFollow_iff (h : f.Linked fun _ => False) (hd : d.IsOf f) (hb : f.Reachable b) :
    canFollow d b c = true ↔ Relation.TransGen (fun b c => c ∈ f.successors b) b c := by
  rw [canFollow, hd.graph, List.any_eq_true, Relation.TransGen.head'_iff]
  constructor
  · rintro ⟨s, hs, hc⟩
    obtain ⟨-, hlive, hsucc⟩ := mem_blockGraph_successorsOf.1 hs
    obtain ⟨p, hp⟩ := (FlowGraph.mem_preorder (blockGraph_consistent f).below s c).1
      (List.contains_iff_mem.1 hc)
    exact ⟨s, hsucc, FlowGraph.reaches_iff.1 ⟨p, (h.path_iff_of_live hlive).2 hp⟩⟩
  · rintro ⟨s, hsucc, hrest⟩
    have hs := h.edge_of_successor hd hb hsucc
    obtain ⟨p, hp⟩ := (FlowGraph.reaches_iff (g := f.toFlowGraph)).2 hrest
    have hp' := (h.path_iff_of_live (mem_blockGraph_successorsOf.1 hs).2.1).1 hp
    refine ⟨s, hs, List.contains_iff_mem.2 ?_⟩
    exact (FlowGraph.mem_preorder (blockGraph_consistent f).below s c).2 ⟨p, hp'⟩

/-- `j` can come after `i`: it stands behind it in its block, or in a block that control can come to
from there on at least one edge. -/
def MayFollow (f : Func) (i j : InstId) : Prop :=
  ∃ x y, f.insts.get? i = some x ∧ f.insts.get? j = some y ∧
    ((∃ k l : Nat, (f.instsOf x.block)[k]? = some (i, x) ∧ (f.instsOf x.block)[l]? = some (j, y) ∧
        k < l) ∨
      Relation.TransGen (fun b c => c ∈ f.successors b) x.block y.block)

theorem Linked.mayFollow_iff (h : f.Linked fun _ => False) (hd : d.IsOf f) (hb : f.Reachable b)
    {j : InstId} {l : Nat} {other : Inst} (hi : (f.instsOf b)[k]? = some (i, inst))
    (hj : (f.instsOf c)[l]? = some (j, other)) :
    f.MayFollow i j ↔ canFollow d b c = true ∨ c = b ∧ k < l := by
  obtain ⟨-, -, -, hgeti⟩ := h.getElem?_instsOf.1 hi
  obtain ⟨-, -, -, hgetj⟩ := h.getElem?_instsOf.1 hj
  dsimp only at hgeti hgetj
  obtain rfl : inst.block = b := h.block_of_instsOf (List.mem_of_getElem? hi)
  obtain rfl : other.block = c := h.block_of_instsOf (List.mem_of_getElem? hj)
  rw [h.canFollow_iff hd hb]
  constructor
  · rintro ⟨x, y, hx, hy, ⟨k', l', hk', hl', hlt⟩ | hway⟩
    · obtain rfl := Option.some.inj (hgeti.symm.trans hx)
      have hblock : other.block = inst.block := by
        rw [Option.some.inj (hgetj.symm.trans hy)]
        exact h.block_of_instsOf (List.mem_of_getElem? hl')
      rw [hblock] at hj
      rw [h.place_unique hi hk' rfl, h.place_unique hj hl' rfl]
      exact .inr ⟨hblock, hlt⟩
    · obtain rfl := Option.some.inj (hgeti.symm.trans hx)
      obtain rfl := Option.some.inj (hgetj.symm.trans hy)
      exact .inl hway
  · rintro (hway | ⟨hblock, hlt⟩)
    · exact ⟨inst, other, hgeti, hgetj, .inr hway⟩
    · exact ⟨inst, other, hgeti, hgetj, .inl ⟨k, l, hi, by rwa [hblock] at hj, hlt⟩⟩

theorem Linked.capturesAreFinal_iff (h : f.Linked fun _ => False) (hd : d.IsOf f)
    {uses : List CellUse} (hu : ∀ u ∈ uses, ∃ inst, f.insts.get? u.inst = some inst ∧
      f.Reachable inst.block) :
    f.capturesAreFinal d uses = .ok true ↔ ∀ c ∈ uses, c.isCapture = true → ∀ u ∈ uses,
      u.inst ≠ c.inst → ¬ f.MayFollow c.inst u.inst := by
  have hplace : ∀ u ∈ uses, ∃ (b : BlockId) (k : Nat) (inst : Inst),
      (f.instsOf b)[k]? = some (u.inst, inst) ∧ f.Reachable b := by
    intro u hmem
    obtain ⟨inst, hi, hreach⟩ := hu u hmem
    obtain ⟨k, hk⟩ := h.exists_getElem?_instsOf hi
    exact ⟨inst.block, k, inst, hk, hreach⟩
  choose! b k inst hat hreach using hplace
  have hlocated : uses.mapM (fun u => do return (u, ← f.locate u.inst)) =
      .ok (uses.map fun u => (u, b u, k u)) :=
    mapM_ok fun u hmem => bind_eq_ok.2 ⟨_, h.locate_eq (hat u hmem), rfl⟩
  unfold capturesAreFinal
  rw [hlocated]
  change Except.ok _ = Except.ok true ↔ _
  simp only [Except.ok.injEq, List.all_map, List.all_eq_true, Function.comp_apply]
  refine forall₂_congr fun c hc => ?_
  by_cases hcapture : c.isCapture = true
  · simp only [hcapture, Bool.not_true, Bool.false_or, List.all_eq_true, true_implies]
    refine forall₂_congr fun u hu => ?_
    rw [h.mayFollow_iff hd (hreach c hc) (hat c hc) (hat u hu)]
    by_cases heq : u.inst = c.inst
    · simp [heq]
    · simp [heq, imp_iff_not_or]
  · simp [hcapture]

end Func

namespace Promoting

variable {f : Func} {d : Dominance} {cell : Cell} {joins : Joins} {captured : Bool}
  {c i : InstId} {s t : Site}

/-- What comes on from a capture of a promotable cell is the capture itself, on a cycle beside the
creation. -/
theorem onward_capture (h : Promoting f d cell joins)
    (haccepts : Verdict.Accepts (f.promotable captured d cell.creation) cell) {inst : Inst}
    {proto : Nat} (hc : f.insts.get? c = some inst) (hop : inst.opcode = .closure proto)
    (hs : cell.UsedAt f c s) (ht : cell.UsedAt f i t) (hway : s.Onward f cell.home t) :
    i = c ∧ Relation.TransGen (f.EdgeBeside cell.home) s.block s.block := by
  have ⟨inst₁, hs₁, hmem₁⟩ := hs
  have ⟨inst₂, ht₂, hmem₂⟩ := ht
  obtain ⟨-, -, -, hi₁⟩ := Func.mem_instsOf.1 (List.mem_of_getElem? hs₁)
  obtain ⟨-, -, -, hi₂⟩ := Func.mem_instsOf.1 (List.mem_of_getElem? ht₂)
  -- Of the capture itself the check says nothing; it gets the instance again round a cycle only.
  by_cases heq : i = c
  · subst heq
    obtain rfl := Option.some.inj (hi₁.symm.trans hi₂)
    have hblock : s.block = t.block :=
      (h.sound.linked.block_of_instsOf (List.mem_of_getElem? hs₁)).symm.trans
        (h.sound.linked.block_of_instsOf (List.mem_of_getElem? ht₂))
    rcases hway with ⟨-, hlt⟩ | hway
    · rw [← hblock] at ht₂
      exact absurd (h.sound.linked.place_unique hs₁ ht₂ rfl) (Nat.ne_of_lt hlt)
    · exact ⟨rfl, by rwa [← hblock] at hway⟩
  · obtain ⟨u, hu, rfl⟩ := h.isIn.listed _ _ hi₁ hmem₁
    obtain ⟨v, hv, rfl⟩ := h.isIn.listed _ _ hi₂ hmem₂
    have hcapture : u.isCapture = true := by
      obtain ⟨inst', hi', -, -, hfits⟩ := h.isIn.use u hu
      obtain rfl := Option.some.inj (hc.symm.trans hi')
      cases u with
      | load j => simp [CellUse.Fits, hop] at hfits
      | store j => simp [CellUse.Fits, hop] at hfits
      | capture j => rfl
    obtain ⟨-, -, -, -, -, -, -, -, -, -, -, hfinal⟩ := Func.promotable_accepts_iff.1 haccepts
    obtain ⟨-, hfinal⟩ := hfinal (List.any_eq_true.2 ⟨u, hu, hcapture⟩)
    have hd := h.verified.dominance
    have hnone := (h.sound.linked.capturesAreFinal_iff hd fun w hw => by
      obtain ⟨inst, hi, hreach, -⟩ := h.isIn.use w hw
      exact ⟨inst, hi, hd.isReachable_iff.1 hreach⟩).1 hfinal u hu hcapture v hv heq
    refine absurd ⟨inst₁, inst₂, hi₁, hi₂, ?_⟩ hnone
    have hblock₁ := h.sound.linked.block_of_instsOf (List.mem_of_getElem? hs₁)
    have hblock₂ := h.sound.linked.block_of_instsOf (List.mem_of_getElem? ht₂)
    dsimp only at hblock₁ hblock₂
    rw [hblock₁, hblock₂]
    rcases hway with ⟨hsame, hlt⟩ | hway
    · exact .inl ⟨s.done, t.done, hs₁, hsame ▸ ht₂, hlt⟩
    · exact .inr (hway.lift id fun _ _ hedge => hedge.1)

theorem captured_again (h : Promoting f d cell joins)
    (haccepts : Verdict.Accepts (f.promotable captured d cell.creation) cell)
    {path : List BlockId} (hpath : f.IsPath path) :
    (f.trace none path).received.Pairwise fun later earlier =>
      ∀ n, f.Captures cell.creation n earlier → .cell cell.creation n ∈ later.2 →
        later.1 = earlier.1 ∧ ∃ inst proto, f.insts.get? earlier.1 = some inst ∧
          inst.opcode = .closure proto ∧ cell.value ∈ inst.operands ∧
          Relation.TransGen (f.EdgeBeside cell.home) inst.block inst.block := by
  obtain ⟨j, created, hj, -⟩ := h.creation_place
  refine (h.watched_trace hj hpath).follows.imp ?_
  rintro later earlier hfollows n ⟨inst, proto, hc, hop, hearlier⟩ hlater
  obtain ⟨s, t, hs, ht, hway⟩ := hfollows n hearlier hlater
  obtain ⟨heq, hcycle⟩ := h.onward_capture haccepts hc hop hs ht hway
  obtain ⟨inst', hk, hmem⟩ := hs
  obtain ⟨-, -, -, hi⟩ := Func.mem_instsOf.1 (List.mem_of_getElem? hk)
  obtain rfl := Option.some.inj (hc.symm.trans hi)
  rw [← h.sound.linked.block_of_instsOf (List.mem_of_getElem? hk)] at hcycle
  exact ⟨heq, inst, proto, hc, hop, hmem, hcycle⟩

theorem recaptured (h : Promoting f d cell joins) {inst : Inst} {proto : Nat}
    (hc : f.insts.get? c = some inst) (hop : inst.opcode = .closure proto)
    (hmem : cell.value ∈ inst.operands)
    (hcycle : Relation.TransGen (f.EdgeBeside cell.home) inst.block inst.block) :
    ∃ path, f.IsPath path ∧ ¬ (f.trace none path).received.Pairwise fun later earlier =>
      ∀ n, f.Captures cell.creation n earlier → .cell cell.creation n ∉ later.2 := by
  obtain ⟨j, created, hj, -⟩ := h.creation_place
  obtain ⟨k, hk⟩ := h.sound.linked.exists_getElem?_instsOf hc
  have hused : cell.UsedAt f c ⟨inst.block, k⟩ := ⟨inst, hk, hmem⟩
  obtain ⟨path, n, new, old, args, args', hpath, hreceived, hnew, hold, hin, hin'⟩ :=
    h.receives_again hj hused hcycle
  refine ⟨path, hpath, fun hpairs => ?_⟩
  rw [hreceived, List.pairwise_append] at hpairs
  exact hpairs.2.2 _ hnew _ hold n ⟨inst, proto, hc, hop, hin'⟩ hin

end Promoting

open Verdict in
theorem Edit.promoting_of_promoteCell {f g : Func} (hf : f.Built)
    (hv : (verify.apply f).1 = .ok ()) {captured : Bool} {i : InstId} {how : Promotion}
    (h : (promoteCell captured i).apply f = (.ok (.promoted how), g)) :
    ∃ d cell joins, cell.creation = i ∧ Promoting { f with dominance := some d } d cell joins ∧
      Accepts (Func.promotable { f with dominance := some d } captured d i) cell := by
  obtain ⟨d, -, ⟨why, -, hrun⟩ | ⟨cell, rfl, haccepts, hp, -⟩⟩ :=
    promoteCell_cases hf hv captured (contains_of_promoteCell hf hv h)
  · rw [h] at hrun
    cases hrun
  · obtain ⟨-, -, -, joins, hpromoting, -⟩ := hp.dissolve_ensures
    exact ⟨d, cell, joins, rfl, hpromoting, haccepts⟩

/-- Captures of promoted cells. Along every path from the entry, no instruction other than the
capture gets an instance that was captured before. No instruction at all does so on any path exactly
if no capture stands on a cycle beside the creation of the cell. -/
theorem Edit.promoteCell_captures (f g : Func) (hf : f.Built) (hv : (verify.apply f).1 = .ok ())
    (captured : Bool) (i : InstId) (how : Promotion)
    (h : (promoteCell captured i).apply f = (.ok (.promoted how), g)) :
    ∃ created cell, f.insts.get? i = some created ∧ created.opcode = .newRef ∧
      created.result = some cell ∧
      (∀ path, f.IsPath path → (f.trace none path).received.Pairwise fun later earlier =>
        ∀ n, f.Captures i n earlier → .cell i n ∈ later.2 → later.1 = earlier.1) ∧
      ((∀ path, f.IsPath path → (f.trace none path).received.Pairwise fun later earlier =>
          ∀ n, f.Captures i n earlier → .cell i n ∉ later.2) ↔
        ∀ c inst proto, f.insts.get? c = some inst → inst.opcode = .closure proto →
          cell ∈ inst.operands →
          ¬ Relation.TransGen (f.EdgeBeside created.block) inst.block inst.block) := by
  obtain ⟨d, cell, joins, rfl, hp, haccepts⟩ := promoting_of_promoteCell hf hv h
  obtain ⟨created, hi, hop, hres, -, hblock⟩ := hp.isIn.creation
  have hagain := fun path (hpath : f.IsPath path) => hp.captured_again haccepts hpath
  simp only [f.trace_withDominance (some d)] at hagain
  refine ⟨created, cell.value, hi, hop, hres, fun path hpath => ?_,
    fun hfinal c inst proto hc hclosure hmem hcycle => ?_, fun hnone path hpath => ?_⟩
  · exact (hagain path hpath).imp fun hpair n hcapture hlater => (hpair n hcapture hlater).1
  · rw [hblock] at hcycle
    obtain ⟨path, hpath, hnot⟩ := hp.recaptured hc hclosure hmem hcycle
    rw [f.trace_withDominance] at hnot
    exact hnot (hfinal path hpath)
  · refine (hagain path hpath).imp fun hpair n hcapture hlater => ?_
    obtain ⟨-, inst, proto, hc, hclosure, hmem, hcycle⟩ := hpair n hcapture hlater
    rw [← hblock] at hcycle
    exact hnone _ inst proto hc hclosure hmem hcycle

/-- A closure in a loop captures a cell made in front of the loop. -/
def capturingLoop : List Call :=
  [.addArgument, .addBlock, .addBlock, .appendValue ⟨0⟩ .newRef [⟨0⟩],
    .append ⟨0⟩ (.branch ⟨1⟩) [], .appendValue ⟨1⟩ (.closure 0) [⟨1⟩],
    .append ⟨1⟩ (.condBranch ⟨1⟩ ⟨2⟩) [⟨0⟩], .append ⟨2⟩ .ret []]

theorem capturingLoop_spec : ∃ f g : Func,
    f = capturingLoop.foldl (fun f c => c.run f) (Func.new "f") ∧
    (Edit.verify.apply f).1 = .ok () ∧
    (Edit.promoteCell true ⟨0⟩).apply f = (.ok (.promoted .readOnly), g) ∧
    f.insts.get? ⟨0⟩ = some ⟨.newRef, [⟨0⟩], some ⟨1⟩, ⟨0⟩⟩ ∧
    f.insts.get? ⟨2⟩ = some ⟨.closure 0, [⟨1⟩], some ⟨2⟩, ⟨1⟩⟩ ∧ f.EdgeBeside ⟨0⟩ ⟨1⟩ ⟨1⟩ := by
  let f : Func := capturingLoop.foldl (fun f c => c.run f) (Func.new "f")
  have hv : (Edit.verify.apply f).1 = .ok () := by decide +kernel
  have hout : ((Edit.promoteCell true ⟨0⟩).apply f).1 = .ok (.promoted .readOnly) := by
    decide +kernel
  have hcell : f.insts.get? ⟨0⟩ = some ⟨.newRef, [⟨0⟩], some ⟨1⟩, ⟨0⟩⟩ := by decide +kernel
  have hclosure : f.insts.get? ⟨2⟩ = some ⟨.closure 0, [⟨1⟩], some ⟨2⟩, ⟨1⟩⟩ := by decide +kernel
  have hedge : f.EdgeBeside ⟨0⟩ ⟨1⟩ ⟨1⟩ := by
    unfold Func.EdgeBeside
    decide +kernel
  rcases hrun : (Edit.promoteCell true ⟨0⟩).apply f with ⟨out, g⟩
  rw [hrun] at hout
  obtain rfl : out = _ := hout
  exact ⟨f, g, rfl, hv, hrun, hcell, hclosure, hedge⟩

/-- On each round of the loop the closure gets the one instance that there is, and only it does. -/
theorem Edit.capturingLoop_captures :
    ∃ f g : Func, f = capturingLoop.foldl (fun f c => c.run f) (Func.new "f") ∧
      (promoteCell true ⟨0⟩).apply f = (.ok (.promoted .readOnly), g) ∧
      (∀ path, f.IsPath path → (f.trace none path).received.Pairwise fun later earlier =>
        ∀ n, f.Captures ⟨0⟩ n earlier → .cell ⟨0⟩ n ∈ later.2 → later.1 = earlier.1) ∧
      ¬ ∀ path, f.IsPath path → (f.trace none path).received.Pairwise fun later earlier =>
        ∀ n, f.Captures ⟨0⟩ n earlier → .cell ⟨0⟩ n ∉ later.2 := by
  obtain ⟨f, g, hf, hv, hrun, hcell, hclosure, hedge⟩ := capturingLoop_spec
  obtain ⟨created, cell, hi, -, hres, honly, hfinal⟩ :=
    promoteCell_captures f g ⟨"f", capturingLoop, hf⟩ hv true ⟨0⟩ _ hrun
  obtain rfl := Option.some.inj (hcell.symm.trans hi)
  obtain rfl := Option.some.inj hres
  refine ⟨f, g, hf, hrun, honly, fun hall => ?_⟩
  exact hfinal.1 hall ⟨2⟩ _ 0 hclosure rfl List.mem_cons_self (.single hedge)

/-- A promoted cell with an instance that is captured and captured again. -/
theorem Edit.capturingLoop_recaptured :
    ∃ f g : Func, f = capturingLoop.foldl (fun f c => c.run f) (Func.new "f") ∧
      (verify.apply f).1 = .ok () ∧
      (promoteCell true ⟨0⟩).apply f = (.ok (.promoted .readOnly), g) ∧
      ∃ path, f.IsPath path ∧ ¬ (f.trace none path).received.Pairwise fun later earlier =>
        ∀ n, f.Captures ⟨0⟩ n earlier → .cell ⟨0⟩ n ∉ later.2 := by
  obtain ⟨f, g, hf, hv, hrun, hcell, hclosure, hedge⟩ := capturingLoop_spec
  obtain ⟨d, cell, joins, hcreation, hp, -⟩ :=
    promoting_of_promoteCell ⟨"f", capturingLoop, hf⟩ hv hrun
  obtain ⟨created, hi, -, hres, -, hhome⟩ := hp.isIn.creation
  rw [hcreation] at hi
  obtain rfl := Option.some.inj (hcell.symm.trans hi)
  have hmem : cell.value ∈ [(⟨1⟩ : ValueId)] := by
    rw [← Option.some.inj hres]
    exact List.mem_cons_self
  obtain ⟨path, hpath, hnot⟩ := hp.recaptured hclosure rfl hmem (.single (hhome ▸ hedge))
  rw [hcreation, f.trace_withDominance] at hnot
  exact ⟨f, g, hf, hv, hrun, path, hpath, hnot⟩

end Midend
