import Midend.Proofs.Promotion.Sealed

/-!
The content of the cell as a value. From the code alone one can read off a value that the cell holds
at each site after its creation: the initial value, then what is stored last, the join value at the
start of a block that has one, and otherwise what was held at the end of the immediate dominator.
Executions agree with that.
-/

namespace Midend

open Cell

/-- The value that the cell holds at a site. -/
inductive Cell.Holds (f : Func) (d : Dominance) (cell : Cell) (joins : Joins) :
    Site → ValueId → Prop where
  | created {k : Nat} {inst : Inst} :
      (f.instsOf cell.home)[k]? = some (cell.creation, inst) →
      Holds f d cell joins ⟨cell.home, k + 1⟩ cell.initial
  | join {b : BlockId} {v : ValueId} : joins b = some v → Holds f d cell joins ⟨b, 0⟩ v
  | descend {b p : BlockId} {v : ValueId} : joins b = none → d.idom b = some p →
      Holds f d cell joins (.exit f p) v → Holds f d cell joins ⟨b, 0⟩ v
  | store {b : BlockId} {k : Nat} {v w : ValueId} {e : InstId × Inst} :
      Holds f d cell joins ⟨b, k⟩ v → (f.instsOf b)[k]? = some e → cell.Stores e.2 w →
      Holds f d cell joins ⟨b, k + 1⟩ w
  | keep {b : BlockId} {k : Nat} {v : ValueId} {e : InstId × Inst} :
      Holds f d cell joins ⟨b, k⟩ v → (f.instsOf b)[k]? = some e → e.1 ≠ cell.creation →
      (∀ w, ¬ cell.Stores e.2 w) → Holds f d cell joins ⟨b, k + 1⟩ v

namespace Promoting

variable {f : Func} {d : Dominance} {cell : Cell} {joins : Joins} {b c p q y : BlockId} {j k : Nat}
  {s t : Site} {u v w r : ValueId} {x : Execution ValueId Term Memory} {e : InstId × Inst}

theorem available_cell_iff (h : Promoting f d cell joins) {inst : Inst}
    (hj : (f.instsOf cell.home)[j]? = some (cell.creation, inst)) :
    Available f joins cell.value t ↔ (⟨cell.home, j + 1⟩ : Site).Before f t := by
  obtain ⟨-, -, -, hi⟩ := Func.mem_instsOf.1 (List.mem_of_getElem? hj)
  constructor
  · intro hc
    exact hc _ (.inst hj ((h.creation_iff hi).1 rfl))
  · intro hbefore s hs
    obtain ⟨hb, k, inst', hk, hdone⟩ := h.written_cell hs
    have hkj := h.sound.linked.place_unique hj hk rfl
    have hsite : s = ⟨cell.home, j + 1⟩ := Site.ext hb (by rw [hdone, hkj])
    rw [hsite]
    exact hbefore

theorem home_dominates (h : Promoting f d cell joins) (hc : Available f joins cell.value t) :
    cell.home = t.block ∨ f.StrictlyDominates cell.home t.block := by
  obtain ⟨j, inst, hj, -⟩ := h.creation_place
  rcases (h.available_cell_iff hj).1 hc with ⟨hb, -⟩ | hd
  · exact .inl hb
  · exact .inr hd

theorem home_reachable (h : Promoting f d cell joins) : f.Reachable cell.home :=
  h.verified.dominance.isReachable_iff.1 h.isIn.home_reachable

theorem reachable_of_available (h : Promoting f d cell joins)
    (hc : Available f joins cell.value t) : f.Reachable t.block := by
  rcases h.home_dominates hc with heq | hd
  · rw [← heq]
    exact h.home_reachable
  · exact hd.2.reaches

theorem before_start (h : Promoting f d cell joins) (hp : d.idom b = some p) :
    (Site.exit f p).Before f ⟨b, 0⟩ :=
  .inr (h.verified.dominance.idom_spec hp).1

theorem before_succ : (⟨b, k⟩ : Site).Before f ⟨b, k + 1⟩ := .inl ⟨rfl, Nat.le_succ k⟩

theorem available_of_holds (h : Promoting f d cell joins) (hh : Holds f d cell joins t v) :
    Available f joins cell.value t := by
  obtain ⟨j, inst, hj, -⟩ := h.creation_place
  rw [h.available_cell_iff hj]
  induction hh with
  | created hk =>
    rw [h.sound.linked.place_unique hj hk rfl]
    exact .refl _
  | join hjoin => exact .inr (h.join_below _ _ hjoin)
  | descend _ hp _ ih => exact ih.trans (h.before_start hp)
  | store _ _ _ ih => exact ih.trans before_succ
  | keep _ _ _ _ ih => exact ih.trans before_succ

theorem written_join (h : Promoting f d cell joins) (hj : joins b = some v)
    (hw : Written f joins v s) : s = ⟨b, 0⟩ := by
  have hdead := h.join_fresh b v hj
  cases hw with
  | inst hk hr =>
    obtain ⟨-, -, -, hi⟩ := Func.mem_instsOf.1 (List.mem_of_getElem? hk)
    obtain ⟨val, hval, -⟩ := h.sound.linked.inst_result _ _ _ hi hr
    simp [hdead] at hval
  | phi he hr =>
    obtain ⟨-, -, -, hp⟩ := Func.mem_phisOf.1 he
    obtain ⟨val, hval, -⟩ := h.sound.linked.phi_result _ _ hp
    simp [hr, hdead] at hval
  | join hj' => rw [h.join_unique _ _ _ hj hj']

theorem stored (h : Promoting f d cell joins) (hb : f.Reachable b)
    (hk : (f.instsOf b)[k]? = some e) (hw : cell.Stores e.2 w) :
    Available f joins w ⟨b, k⟩ ∧ w ≠ cell.value := by
  obtain ⟨hop, hhead, hsecond⟩ := hw
  obtain ⟨-, -, -, hi⟩ := Func.mem_instsOf.1 (List.mem_of_getElem? hk)
  refine ⟨h.available_operand hb hk (List.mem_of_getElem? hsecond), ?_⟩
  rintro rfl
  rcases h.access hi (List.mem_of_mem_head? hhead) with ⟨hop', -⟩ | ⟨-, -, hne⟩ | ⟨proto, hop'⟩
  · simp [hop] at hop'
  · exact hne hsecond
  · simp [hop] at hop'

theorem held (h : Promoting f d cell joins) (hh : Holds f d cell joins t v) :
    Available f joins v t ∧ v ≠ cell.value := by
  induction hh with
  | @created k inst hk =>
    obtain ⟨inst', hi, -, hres, hhead, -⟩ := h.isIn.creation
    obtain ⟨-, -, -, hi'⟩ := Func.mem_instsOf.1 (List.mem_of_getElem? hk)
    obtain rfl := Option.some.inj (hi'.symm.trans hi)
    have hav := h.available_operand h.home_reachable hk (List.mem_of_mem_head? hhead)
    refine ⟨hav.mono before_succ, fun heq => ?_⟩
    exact Site.Before.not_succ_self (hav _ (heq ▸ .inst hk hres))
  | join hj =>
    refine ⟨fun s hs => ?_, h.join_ne hj⟩
    rw [h.written_join hj hs]
    exact .refl _
  | descend _ hp _ ih => exact ⟨ih.1.mono (h.before_start hp), ih.2⟩
  | store hh hk hw =>
    have hst := h.stored (h.reachable_of_available (h.available_of_holds hh)) hk hw
    exact ⟨hst.1.mono before_succ, hst.2⟩
  | keep _ _ _ _ ih => exact ⟨ih.1.mono before_succ, ih.2⟩

theorem holds_through (hh : Holds f d cell joins ⟨b, 0⟩ v)
    (hquiet : ∀ e ∈ f.instsOf b, e.1 ≠ cell.creation ∧ ∀ w, ¬ cell.Stores e.2 w)
    (hk : k ≤ (f.instsOf b).length) : Holds f d cell joins ⟨b, k⟩ v := by
  induction k with
  | zero => exact hh
  | succ k ih =>
    have hlt : k < (f.instsOf b).length := hk
    obtain ⟨hne, hstore⟩ := hquiet _ (List.getElem_mem hlt)
    exact .keep (ih (Nat.le_of_lt hlt)) (List.getElem?_eq_getElem hlt) hne hstore

/-- At a block without a join value the cell holds the same at the end of the immediate dominator
and of each predecessor: none of the blocks in between stores or joins, as the block would have to
join then. -/
theorem holds_exit (h : Promoting f d cell joins) (hp : d.idom b = some p) (hj : joins b = none)
    (hq : f.Reachable q) (hedge : f.Edge q b) (hh : Holds f d cell joins (.exit f p) v) :
    Holds f d cell joins (.exit f q) v := by
  have hd := h.verified.dominance
  obtain ⟨hpb, hlowest⟩ := hd.idom_spec hp
  have hhome := h.home_dominates (h.available_of_holds hh)
  have hhomeP : f.Dominates cell.home p := by
    rcases hhome with heq | hlt
    · rw [heq]
      exact .refl hpb.2.reaches_left
    · exact hlt.2
  have hhomeB : f.StrictlyDominates cell.home b := .trans_left hhomeP hpb
  -- Down the tree from `p` to `q`: a block on the way that stored or joined would have `b` in its
  -- frontier.
  have hdown : ∀ y, d.tree.table.Above y p → f.Dominates y q →
      Holds f d cell joins (.exit f y) v := by
    intro y hy
    induction hy using Relation.ReflTransGen.head_induction_on with
    | refl => exact fun _ => hh
    | @head y z hyz hz ih =>
      intro hyq
      have hzy := (hd.idom_spec hyz).1
      have hpy : f.StrictlyDominates p y := .trans_left ((hd.above_iff hzy.2.reaches_left).1 hz) hzy
      have hnot : ¬ f.StrictlyDominates y b := fun hyb => hpy.not_dominates (hlowest y hyb)
      have hnojoin : ∀ u, joins y ≠ some u := by
        intro u hu
        obtain ⟨u', hu'⟩ := h.join_closed y q b (.inr ⟨u, hu⟩) hyq hedge hnot hhomeB
        rw [hj] at hu'
        cases hu'
      refine holds_through (.descend (Option.eq_none_iff_forall_ne_some.2 hnojoin) hyz
        (ih (hzy.2.trans hyq))) (fun e he => ⟨?_, ?_⟩) (Nat.le_refl _)
      · intro heq
        obtain ⟨inst, hinst, -, -, -, hblock⟩ := h.isIn.creation
        obtain ⟨-, -, -, hi⟩ := Func.mem_instsOf.1 he
        rw [heq, hinst] at hi
        have hhomeY : cell.home = y := by
          rw [← hblock, Option.some.inj hi]
          exact h.sound.linked.block_of_instsOf he
        exact hpy.not_dominates (hhomeY ▸ hhomeP)
      · intro w hw
        obtain ⟨u, hu⟩ := h.join_closed y q b
          (.inl ⟨e, he, hw.1, List.mem_of_mem_head? hw.2.1⟩) hyq hedge hnot hhomeB
        rw [hj] at hu
        cases hu
  exact hdown q ((hd.above_iff hq).2 (hpb.of_step hq hedge)) (.refl hq)

theorem content_edge (h : Promoting f d cell joins) :
    cell.content (cell.note joins c (x.runPhis id b (f.phisOf c))) = cell.content x := by
  have henv : (cell.note joins c (x.runPhis id b (f.phisOf c))).env cell.value =
      x.env cell.value := by
    refine env_edge fun hw => ?_
    obtain ⟨-, k, inst, -, hdone⟩ := h.written_cell hw
    cases hdone
  rw [content, content, henv, state_note, Execution.state_runPhis]

/-- Whatever way an execution comes to a site, the cell holds what the code says. -/
theorem env_of_holds (h : Promoting f d cell joins) (hx : Reached f cell joins t x)
    (hh : Holds f d cell joins t v) : x.env v = cell.content x := by
  induction hx generalizing v with
  | start =>
    obtain ⟨j, inst, hj, -⟩ := h.creation_place
    rcases (h.available_cell_iff hj).1 (h.available_of_holds hh) with ⟨-, hle⟩ | hlt
    · exact absurd hle (Nat.not_succ_le_zero _)
    · exact absurd hlt.2.eq_root hlt.1
  | @inst b k x e hx hk ih =>
    obtain ⟨-, -, -, hi⟩ := Func.mem_instsOf.1 (List.mem_of_getElem? hk)
    have hkept : ∀ u, Available f joins u ⟨b, k⟩ →
        (x.runInst cell.machine id e).env u = x.env u := fun u hu =>
      env_inst hk fun hw => Site.Before.not_succ_self (hu _ hw)
    cases hh with
    | @created _ inst hk' =>
      obtain rfl := Option.some.inj (hk.symm.trans hk')
      obtain ⟨inst', hi', -, -, hhead, -⟩ := h.isIn.creation
      obtain rfl := Option.some.inj (hi.symm.trans hi')
      rw [h.content_creation hi rfl]
      exact hkept _ (h.available_operand h.home_reachable hk (List.mem_of_mem_head? hhead))
    | @store _ _ u _ e' hh hk' hw =>
      obtain rfl := Option.some.inj (hk.symm.trans hk')
      have hc := h.available_of_holds hh
      obtain ⟨n, hn⟩ := h.exists_cell hc hx
      rw [h.content_store hn hi hw]
      exact hkept _ (h.stored (h.reachable_of_available hc) hk hw).1
    | @keep _ _ _ e' hh hk' hne hstore =>
      obtain rfl := Option.some.inj (hk.symm.trans hk')
      rw [h.content_inst (h.sealed_of_reached hx) hi hne hstore, hkept _ (h.held hh).1]
      exact ih hh
  | @edge b c x hx hc ih =>
    have hreach := (h.reachable hx).1
    have hedge := h.sound.linked.edge_of_successor h.verified.dominance hreach hc
    rw [h.content_edge]
    cases hh with
    | join hj =>
      rw [env_note, if_pos hj, content, content, Execution.state_runPhis,
        Execution.env_runPhis_of_ne fun e he => h.phi_ne he]
    | descend hj hp hh =>
      rw [env_edge fun hw => ?_]
      · exact ih (h.holds_exit hp hj hreach hedge hh)
      -- A value that is there at the end of `p` is not written on entry to `b`, which comes later.
      · have hback := (h.held hh).1 _ hw
        have hstart := hback.antisymm (h.before_start hp)
        exact (h.verified.dominance.idom_spec hp).1.1 (congrArg Site.block hstart).symm

theorem exists_holds_succ (hh : ∃ v, Holds f d cell joins ⟨b, k⟩ v)
    (hk : (f.instsOf b)[k]? = some e) (hne : e.1 ≠ cell.creation) :
    ∃ v, Holds f d cell joins ⟨b, k + 1⟩ v := by
  obtain ⟨v, hv⟩ := hh
  by_cases hw : ∃ w, cell.Stores e.2 w
  · obtain ⟨w, hw⟩ := hw
    exact ⟨w, .store hv hk hw⟩
  · exact ⟨v, .keep hv hk hne (not_exists.1 hw)⟩

theorem exists_holds_from (h : Promoting f d cell joins)
    (hh : ∃ v, Holds f d cell joins ⟨b, j⟩ v) (hjk : j ≤ k) (hk : k ≤ (f.instsOf b).length) :
    ∃ v, Holds f d cell joins ⟨b, k⟩ v := by
  induction k, hjk using Nat.le_induction with
  | base => exact hh
  | succ k hjk ih =>
    have hlt : k < (f.instsOf b).length := hk
    obtain ⟨v, hv⟩ := ih (Nat.le_of_lt hlt)
    refine exists_holds_succ ⟨v, hv⟩ (List.getElem?_eq_getElem hlt) fun heq => ?_
    have hget := List.getElem?_eq_getElem hlt
    obtain ⟨-, -, -, hi⟩ := Func.mem_instsOf.1 (List.mem_of_getElem? hget)
    have hw : Written f joins cell.value ⟨b, k + 1⟩ := .inst hget ((h.creation_iff hi).1 heq)
    exact Site.Before.not_succ_self (h.available_of_holds hv _ hw)

theorem exists_holds_exit (h : Promoting f d cell joins) (hb : d.tree.table.Above b cell.home) :
    ∃ v, Holds f d cell joins (.exit f b) v := by
  induction hb using Relation.ReflTransGen.head_induction_on with
  | refl =>
    obtain ⟨j, inst, hj, -⟩ := h.creation_place
    exact h.exists_holds_from ⟨_, .created hj⟩ (List.getElem?_eq_some_iff.1 hj).1 (Nat.le_refl _)
  | @head b p hp _ ih =>
    obtain ⟨v, hv⟩ := ih
    refine h.exists_holds_from (j := 0) ?_ (Nat.zero_le _) (Nat.le_refl _)
    cases hjoin : joins b with
    | none => exact ⟨v, .descend hjoin hp hv⟩
    | some u => exact ⟨u, .join hjoin⟩

theorem exists_holds (h : Promoting f d cell joins) (hc : Available f joins cell.value t)
    (ht : t.Within f) : ∃ v, Holds f d cell joins t v := by
  obtain ⟨b, k⟩ := t
  obtain ⟨j, inst, hj, -⟩ := h.creation_place
  rcases (h.available_cell_iff hj).1 hc with ⟨rfl, hle⟩ | hlt
  · exact h.exists_holds_from ⟨_, .created hj⟩ hle ht
  · refine h.exists_holds_from (j := 0) ?_ (Nat.zero_le _) ht
    cases hjoin : joins b with
    | some u => exact ⟨u, .join hjoin⟩
    | none =>
      have hd := h.verified.dominance
      obtain ⟨p, hp⟩ := hd.idom_exists hlt
      have hspec := hd.idom_spec hp
      obtain ⟨v, hv⟩ := h.exists_holds_exit
        ((hd.above_iff hspec.1.2.reaches_left).2 (hspec.2 _ hlt))
      exact ⟨v, .descend hjoin hp hv⟩

theorem copies_of_holds (h : Promoting f d cell joins) (hh : Holds f d cell joins t v) :
    Copies f cell joins t v :=
  ⟨(h.held hh).1, (h.held hh).2, fun _ hx => h.env_of_holds hx hh⟩

theorem copies_of_same (hv : Copies f cell joins t v) (hvw : Same f cell joins t v w) :
    Copies f cell joins t w :=
  ⟨hvw.right, fun hw => hv.ne (hvw.cell_iff.2 hw),
    fun x hx => (hvw.eq x hx).symm.trans (hv.eq x hx)⟩

theorem copies_keep (h : Promoting f d cell joins) (hv : Copies f cell joins ⟨b, k⟩ v)
    (hk : (f.instsOf b)[k]? = some e) (hne : e.1 ≠ cell.creation)
    (hstore : ∀ w, ¬ cell.Stores e.2 w) : Copies f cell joins ⟨b, k + 1⟩ v := by
  refine ⟨hv.available.mono before_succ, hv.ne, fun x hx => ?_⟩
  obtain ⟨-, -, -, hi⟩ := Func.mem_instsOf.1 (List.mem_of_getElem? hk)
  cases hx with
  | inst hx hk' =>
    obtain rfl := Option.some.inj (hk.symm.trans hk')
    rw [h.content_inst (h.sealed_of_reached hx) hi hne hstore,
      env_inst hk fun hw => Site.Before.not_succ_self (hv.available _ hw)]
    exact hv.eq _ hx

theorem copies_store (h : Promoting f d cell joins) (hb : f.Reachable b)
    (hk : (f.instsOf b)[k]? = some e) (hw : cell.Stores e.2 w)
    (hwu : Same f cell joins ⟨b, k⟩ w u) : Copies f cell joins ⟨b, k + 1⟩ u := by
  have hne : u ≠ cell.value := fun hu => (h.stored hb hk hw).2 (hwu.cell_iff.2 hu)
  refine ⟨hwu.right.mono before_succ, hne, fun x hx => ?_⟩
  obtain ⟨-, -, -, hi⟩ := Func.mem_instsOf.1 (List.mem_of_getElem? hk)
  cases hx with
  | inst hx hk' =>
    obtain rfl := Option.some.inj (hk.symm.trans hk')
    obtain ⟨n, hn⟩ := h.exists_cell (h.available_operand hb hk (List.mem_of_mem_head? hw.2.1)) hx
    rw [h.content_store hn hi hw,
      env_inst hk fun hwr => Site.Before.not_succ_self (hwu.right _ hwr)]
    exact (hwu.eq _ hx).symm

theorem same_load (h : Promoting f d cell joins) (hb : f.Reachable b)
    (hk : (f.instsOf b)[k]? = some e) (hop : e.2.opcode = .getRef)
    (hhead : e.2.operands.head? = some cell.value) (hr : e.2.result = some r)
    (hv : Copies f cell joins ⟨b, k⟩ v) : Same f cell joins ⟨b, k + 1⟩ r v := by
  obtain ⟨-, -, -, hi⟩ := Func.mem_instsOf.1 (List.mem_of_getElem? hk)
  have hne : e.1 ≠ cell.creation := by
    intro heq
    rw [h.creation_opcode hi heq] at hop
    cases hop
  have hrc : r ≠ cell.value := fun hrc => hne ((h.creation_iff hi).2 (hrc ▸ hr))
  obtain ⟨val, hval, hdef⟩ := h.sound.linked.inst_result _ _ _ hi hr
  refine ⟨fun s hs => ?_, hv.available.mono before_succ, iff_of_false hrc hv.ne, fun x hx => ?_⟩
  · rcases h.written_iff hval hs with ⟨e', k', hdef', hsite, hk'⟩ | ⟨e', hdef', -⟩
    · have heq : e.1 = e'.1 := Definition.inst.inj (hdef.symm.trans hdef')
      obtain ⟨-, -, -, hi'⟩ := Func.mem_instsOf.1 (List.mem_of_getElem? hk')
      have hinst : e.2 = e'.2 := Option.some.inj (hi.symm.trans (heq ▸ hi'))
      -- A block lists each instruction once, so the load is the only site that writes `r`.
      have hblock : s.block = b := by
        rw [← h.sound.linked.block_of_instsOf (List.mem_of_getElem? hk'), ← hinst]
        exact h.sound.linked.block_of_instsOf (List.mem_of_getElem? hk)
      rw [hblock] at hk' hsite
      rw [hsite, h.sound.linked.place_unique hk hk' heq]
      exact .refl _
    · rw [hdef] at hdef'
      cases hdef'
  · cases hx with
    | inst hx hk' =>
      obtain rfl := Option.some.inj (hk.symm.trans hk')
      obtain ⟨n, hn⟩ := h.exists_cell (h.available_operand hb hk (List.mem_of_mem_head? hhead)) hx
      rw [env_load hn hop hhead hr,
        env_inst hk fun hw => Site.Before.not_succ_self (hv.available _ hw)]
      exact (hv.eq _ hx).symm

/-- A copy at the end of the immediate dominator is one at the start of a block without a join
value. -/
theorem copies_descend (h : Promoting f d cell joins) (hp : d.idom b = some p)
    (hj : joins b = none) (hhome : d.tree.table.Above p cell.home)
    (hu : Copies f cell joins (.exit f p) u) : Copies f cell joins ⟨b, 0⟩ u := by
  obtain ⟨v, hv⟩ := h.exists_holds_exit hhome
  have hcv := h.copies_of_holds hv
  have hsame : Same f cell joins (.exit f p) v u :=
    ⟨hcv.available, hu.available, iff_of_false hcv.ne hu.ne,
      fun x hx => (hcv.eq x hx).trans (hu.eq x hx).symm⟩
  exact copies_of_same (h.copies_of_holds (.descend hj hp hv))
    (h.same_of_before (Nat.le_refl _) hsame (h.before_start hp))

end Promoting

end Midend
