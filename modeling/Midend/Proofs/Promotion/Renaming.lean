import Midend.Proofs.Promotion.Direct

/-!
The walk down the dominator tree. When it comes to a block, the blocks that dominate it are done and
those that it dominates are not; when it leaves, it has gone through all of the latter and has given
a source to each phi of the cell at the end of an edge from one of them.
-/

namespace Midend

open Cell

/-- Each join value is the result of an added phi, the one that `phiAt` names. -/
structure PhisAt (f : Func) (joins : Joins) (phiAt : OrderedMap BlockId PhiId) (h : Func) :
    Prop where
  added : ∀ b p, phiAt.get? b = some p → f.phis.get? p = none ∧ ∃ phi, h.phis.get? p = some phi ∧
    phi.block = b ∧ joins b = some phi.result
  all : ∀ b v, joins b = some v → ∃ p, phiAt.get? b = some p

/-- Where the walk starts in a block: after the creation, which is the `j`-th instruction of its
block, and in other blocks at the front. -/
def Cell.firstIn (cell : Cell) (j : Nat) (b : BlockId) : Nat := if b = cell.home then j + 1 else 0

/-- The instructions that the walk comes by in the blocks that are done. -/
def Cell.Visited (f : Func) (cell : Cell) (j : Nat) (done : BlockId → Prop) (i : InstId) : Prop :=
  ∃ b, done b ∧ i ∈ ((f.instsOf b).map (·.1)).drop (cell.firstIn j b)

structure Renamed (f : Func) (cell : Cell) (joins : Joins) (phiAt : OrderedMap BlockId PhiId)
    (j : Nat) (done : BlockId → Prop) (h : Func) : Prop where
  dissolving : Dissolving f cell joins (cell.Visited f j done) h
  phis : PhisAt f joins phiAt h
  sources : ∀ b s p, done b → f.Edge b s → phiAt.get? s = some p →
    ∃ phi, h.phis.get? p = some phi ∧ (phi.source b).isSome = true

variable {f g h : Func} {d : Dominance} {cell : Cell} {joins : Joins}
  {phiAt : OrderedMap BlockId PhiId} {done : BlockId → Prop} {b c p : BlockId} {j : Nat}
  {inst : Inst} {v current : ValueId}

theorem PhisAt.keep (ha : PhisAt f joins phiAt h) (hk : h.KeepsPhis g) :
    PhisAt f joins phiAt g where
  added b p hp := by
    obtain ⟨hnew, phi, hphi, hblock, hjoin⟩ := ha.added b p hp
    obtain ⟨phi', hphi', hshape, -⟩ := hk p phi hphi
    obtain ⟨hblock', hres, -⟩ := Phi.mk.inj hshape
    exact ⟨hnew, phi', hphi', hblock'.trans hblock, hres.symm ▸ hjoin⟩
  all := ha.all

theorem Cell.firstIn_of_below (hb : f.StrictlyDominates cell.home b) : cell.firstIn j b = 0 :=
  if_neg hb.1.symm

theorem Cell.mem_firstIn {m : Nat} {e : InstId × Inst} (hm : (f.instsOf c)[m]? = some e)
    (hle : cell.firstIn j c ≤ m) : e.1 ∈ ((f.instsOf c).map (·.1)).drop (cell.firstIn j c) := by
  refine List.mem_of_getElem? (i := m - cell.firstIn j c) ?_
  rw [List.getElem?_drop, Nat.add_sub_cancel' hle, List.getElem?_map, hm]
  rfl

section Walk

variable (hp : Promoting f d cell joins)
  (hj : (f.instsOf cell.home)[j]? = some (cell.creation, inst))

include hp

theorem Promoting.eq_block_of_mem {i : InstId} (hb : i ∈ (f.instsOf b).map (·.1))
    (hc : i ∈ (f.instsOf c).map (·.1)) : b = c := by
  obtain ⟨e, he, rfl⟩ := List.mem_map.1 hb
  obtain ⟨e', he', heq⟩ := List.mem_map.1 hc
  obtain ⟨-, -, -, hi⟩ := Func.mem_instsOf.1 he
  obtain ⟨-, -, -, hi'⟩ := Func.mem_instsOf.1 he'
  rw [heq, hi] at hi'
  rw [← hp.sound.linked.block_of_instsOf he, Option.some.inj hi']
  exact hp.sound.linked.block_of_instsOf he'

theorem Promoting.not_visited (hb : ¬ done b) {i : InstId} (hi : i ∈ (f.instsOf b).map (·.1)) :
    ¬ cell.Visited f j done i := by
  rintro ⟨c, hc, hic⟩
  exact hb (hp.eq_block_of_mem hi (List.mem_of_mem_drop hic) ▸ hc)

include hj

theorem Promoting.firstIn_le {m : Nat} {e : InstId × Inst} (hm : (f.instsOf c)[m]? = some e)
    (hc : cell.value ∈ e.2.operands) : f.Dominates cell.home c ∧ cell.firstIn j c ≤ m := by
  have hcell := (hp.available_cell_iff hj).1 (hp.available_user hm hc).2
  constructor
  · rcases hcell with ⟨hb, -⟩ | hlt
    · have hb' : cell.home = c := hb
      exact hb' ▸ .refl hp.home_reachable
    · exact hlt.2
  · unfold firstIn
    split
    · rename_i heq
      exact hcell.le_done heq.symm
    · exact Nat.zero_le m

/-- Where all that dominates a block is done, all that holds the cell before it was visited. -/
theorem Promoting.cleared_of_done
    (habove : ∀ c, f.Dominates cell.home c → f.StrictlyDominates c b → done c) :
    Cleared f cell (cell.Visited f j done) ⟨b, cell.firstIn j b⟩ := by
  intro c m e hm hc hbefore
  obtain ⟨hdom, hfirst⟩ := hp.firstIn_le hj hm hc
  rcases hbefore with ⟨heq, hle⟩ | hlt
  · have heq' : c = b := heq
    have hle' : m + 1 ≤ cell.firstIn j b := hle
    subst heq'
    omega
  · exact ⟨c, habove c hdom hlt, mem_firstIn hm hfirst⟩

theorem Promoting.creation_notMem_firstIn (hb : f.Dominates cell.home b) :
    cell.creation ∉ ((f.instsOf b).map (·.1)).drop (cell.firstIn j b) := by
  intro hin
  have hhome : cell.creation ∈ (f.instsOf cell.home).map (·.1) :=
    List.mem_map.2 ⟨_, List.mem_of_getElem? hj, rfl⟩
  obtain rfl := hp.eq_block_of_mem hhome (List.mem_of_mem_drop hin)
  rw [firstIn, if_pos rfl] at hin
  exact hp.creation_notMem hj hin

theorem Renamed.instsAfter_eq (hr : Renamed f cell joins phiAt j done h) (hb : f.Reachable b)
    (hnot : ¬ done b) :
    h.instsAfter b (if b = cell.home then some cell.creation else none) =
      .ok (((f.instsOf b).map (·.1)).drop (cell.firstIn j b)) := by
  have hlive : f.hasBlock b = true :=
    Func.hasBlock_iff.2 (hp.sound.linked.live_of_isReachable hp.verified.dominance
      (hp.verified.dominance.isReachable_iff.2 hb))
  obtain ⟨data, hdata, hinsts⟩ := hr.dissolving.insts_eq hp hlive fun i hi => hp.not_visited hnot hi
  unfold firstIn
  split
  · rename_i heq
    subst heq
    exact instsAfter_creation hp hdata hinsts hj
  · rw [List.drop_zero, ← hinsts]
    exact bind_eq_ok.2 ⟨data, Func.block_eq_ok.2 hdata, rfl⟩

omit hj in
theorem Renamed.start_ensures (hr : Renamed f cell joins phiAt j done h)
    (hin : joins b = none → Copies f cell joins ⟨b, cell.firstIn j b⟩ v ∧ Lasting f cell joins v)
    {k : ValueId → Edit Unit} {Q : Unit → Func → Prop}
    (hk : ∀ start, Copies f cell joins ⟨b, cell.firstIn j b⟩ start → Lasting f cell joins start →
      (k start).Ensures h Q) :
    (do
      let start ← match phiAt.get? b with
        | some p => Phi.result <$> Edit.query (·.phi p)
        | none => pure v
      k start : Edit Unit).Ensures h Q := by
  cases hb : phiAt.get? b with
  | none =>
    have hjoin : joins b = none := by
      refine Option.eq_none_iff_forall_ne_some.2 fun w hw => ?_
      obtain ⟨p, hp⟩ := hr.phis.all b w hw
      rw [hb] at hp
      cases hp
    exact hk v (hin hjoin).1 (hin hjoin).2
  | some p =>
    obtain ⟨-, phi, hphi, -, hjoin⟩ := hr.phis.added b p hb
    rw [firstIn_of_below (hp.join_below b _ hjoin)] at hk
    refine .bind (R := fun start g => start = phi.result ∧ g = h) (.map ?_) ?_
    · exact ⟨phi, h, by rw [Edit.apply_query, Func.phi_eq_ok.2 hphi], rfl, rfl⟩
    · rintro _ _ ⟨rfl, rfl⟩
      exact hk _ (hp.copies_of_holds (.join hjoin)) (.inr ⟨b, hjoin⟩)

omit hj in
/-- The phis at the ends of the edges from a block take the value carried to its end. -/
theorem Dissolving.edges_ensures {seen : InstId → Prop} (hd : Dissolving f cell joins seen h)
    (ha : PhisAt f joins phiAt h) (hb : f.Reachable b)
    (hv : Copies f cell joins (.exit f b) current) (hlast : Lasting f cell joins current) :
    ((d.graph.successorsOf b).eraseDups.forM fun s =>
      match phiAt.get? s with
      | some p => Edit.setPhiSource p b current
      | none => pure ()).Ensures h fun _ g => Dissolving f cell joins seen g ∧ h.KeepsPhis g ∧
        ∀ s p, f.Edge b s → phiAt.get? s = some p →
          ∃ phi, g.phis.get? p = some phi ∧ (phi.source b).isSome = true := by
  rw [hp.verified.dominance.graph]
  refine (Edit.Ensures.forM (I := fun past g => Dissolving f cell joins seen g ∧ h.KeepsPhis g ∧
    ∀ s ∈ past, ∀ p, phiAt.get? s = some p →
      ∃ phi, g.phis.get? p = some phi ∧ (phi.source b).isSome = true) _
    (fun past s rest hsplit g hg => ?_) ⟨hd, .refl h, by simp⟩).imp fun _ g hg => ?_
  · obtain ⟨hd', hphis, hpast⟩ := hg
    have hedge : f.Edge b s := List.mem_eraseDups.1 (by simp [hsplit])
    cases hs : phiAt.get? s with
    | none =>
      refine .pure ⟨hd', hphis, fun t ht p hp => ?_⟩
      rcases List.mem_append.1 ht with ht | ht
      · exact hpast t ht p hp
      · rw [List.mem_singleton.1 ht, hs] at hp
        cases hp
    | some p =>
      obtain ⟨hnew, phi, hphi, rfl, -⟩ := (ha.keep hphis).added s p hs
      have hlive : g.hasBlock b = true := by
        obtain ⟨data, hdata⟩ := hp.sound.linked.live_of_isReachable hp.verified.dominance
          (hp.verified.dominance.isReachable_iff.2 hb)
        have hlist := hd'.stage.block b
        rw [hdata] at hlist
        obtain ⟨data', hdata', -⟩ := Option.map_eq_some_iff.1 hlist
        exact Func.hasBlock_iff.2 ⟨data', hdata'⟩
      refine (hd'.stage.setPhiSource_ensures (fun _ => False) hnew hphi hlive
        (hd'.contains_of_lasting hlast) hb hedge hv).imp ?_
      rintro _ g' ⟨hstage, hkeep, phi', hphi', hsource⟩
      refine ⟨hd'.step hstage hkeep (fun i => .inl) (fun i hi => hi.elim id False.elim),
        hphis.trans hkeep.phi, fun t ht q hq => ?_⟩
      rcases List.mem_append.1 ht with ht | ht
      · obtain ⟨psi, hpsi, hset⟩ := hpast t ht q hq
        obtain ⟨psi', hpsi', -, hset'⟩ := hkeep.phi q psi hpsi
        exact ⟨psi', hpsi', hset' b hset⟩
      · rw [List.mem_singleton.1 ht, hs] at hq
        obtain rfl := Option.some.inj hq
        exact ⟨phi', hphi', hsource⟩
  · exact ⟨hg.1, hg.2.1, fun s p hs => hg.2.2 s (List.mem_eraseDups.2 hs) p⟩

/-- One block: its instructions, and the phis that its edges lead to. -/
theorem Renamed.block_ensures (hr : Renamed f cell joins phiAt j done h)
    (hhome : f.Dominates cell.home b) (hnot : ¬ done b)
    (habove : ∀ c, f.Dominates cell.home c → f.StrictlyDominates c b → done c)
    (hv : Copies f cell joins ⟨b, cell.firstIn j b⟩ v) (hlast : Lasting f cell joins v)
    {k : ValueId → Edit Unit} {Q : Unit → Func → Prop}
    (hk : ∀ next g, Renamed f cell joins phiAt j (fun c => done c ∨ c = b) g →
      Copies f cell joins (.exit f b) next → Lasting f cell joins next → (k next).Ensures g Q) :
    (do
      let next ← (((f.instsOf b).map Prod.fst).drop (cell.firstIn j b)).foldlM
        (Edit.dissolveUse cell.value) v
      (d.graph.successorsOf b).eraseDups.forM fun s =>
        match phiAt.get? s with
        | some p => Edit.setPhiSource p b next
        | none => pure ()
      k next).Ensures h Q := by
  have hreach : f.Reachable b := hhome.reaches
  have hfirst : cell.firstIn j b ≤ (f.instsOf b).length := by
    unfold firstIn
    split
    · rename_i heq
      subst heq
      exact (List.getElem?_eq_some_iff.1 hj).1
    · exact Nat.zero_le _
  refine .bind (hr.dissolving.block_ensures hp hreach hfirst
    (fun i hi => hp.not_visited hnot (List.mem_of_mem_drop hi))
    (hp.creation_notMem_firstIn hj hhome) hv hlast (hp.cleared_of_done hj habove))
    fun next g hg => ?_
  obtain ⟨hd, hnext, hlast', hphis⟩ := hg
  refine .bind (hd.edges_ensures hp (hr.phis.keep hphis) hreach hnext hlast') fun _ g' hg' => ?_
  obtain ⟨hd', hphis', hset⟩ := hg'
  refine hk next g' ⟨hd'.congr fun i => ?_, (hr.phis.keep hphis).keep hphis', ?_⟩ hnext hlast'
  · simp only [Visited, or_and_right, exists_or, exists_eq_left]
  · rintro c s p (hc | rfl) hedge hs
    · obtain ⟨phi, hphi, hsource⟩ := hr.sources c s p hc hedge hs
      obtain ⟨phi', hphi', -, hkept⟩ := (hphis.trans hphis') p phi hphi
      exact ⟨phi', hphi', hkept c hsource⟩
    · exact hset s p hedge hs

theorem renameFrom_ensures {fuel : Nat}
    (hfuel : d.tree.table.size < fuel + f.blockGraph.toFlowGraph.place d.tree.entry b)
    (hr : Renamed f cell joins phiAt j done h) (hhome : f.Dominates cell.home b)
    (habove : ∀ c, f.Dominates cell.home c → f.StrictlyDominates c b → done c)
    (hbelow : ∀ c, f.Dominates b c → ¬ done c)
    (hin : joins b = none → Copies f cell joins ⟨b, cell.firstIn j b⟩ v ∧ Lasting f cell joins v) :
    (Edit.renameFrom d cell phiAt fuel b v).Ensures h fun _ g =>
      Renamed f cell joins phiAt j (fun c => done c ∨ f.Dominates b c) g := by
  have hd := hp.verified.dominance
  have hreach : f.Reachable b := hhome.reaches
  induction fuel generalizing b v done h with
  | zero =>
    have := hd.tree.place_le b (hd.entry ▸ hreach)
    omega
  | succ fuel ih =>
    have hnot := hbelow b (.refl hreach)
    unfold Edit.renameFrom
    refine hr.start_ensures hp hin fun start hstart hlast => ?_
    refine .query_bind (hr.instsAfter_eq hp hj hreach hnot) ?_
    refine hr.block_ensures hp hj hhome hnot habove hstart hlast fun next g hg hnext hlast' => ?_
    -- The children one after the other, each with all that it dominates.
    refine (Edit.Ensures.forM (I := fun past g => Renamed f cell joins phiAt j (fun x =>
      (done x ∨ x = b) ∨ ∃ c ∈ past, f.Dominates c x) g) _
      (fun past c rest hsplit g hg => ?_) ?_).imp fun _ g hg => ?_
    · have hc : c ∈ d.children b := by simp [hsplit]
      have hidom : d.idom c = some b := hd.mem_children.1 hc
      obtain ⟨hbc, hlowest⟩ := hd.idom_spec hidom
      have hplace := hd.tree.place_lt c b hidom
      have hhome' : f.StrictlyDominates cell.home c := .trans_left hhome hbc
      have hfuel' : d.tree.table.size <
          fuel + f.blockGraph.toFlowGraph.place d.tree.entry c := by omega
      refine (ih hfuel' hg hhome'.2 (fun x hx hxc => .inl ?_) (fun x hcx => ?_) (fun hjoin => ?_)
        hhome'.2.reaches).imp fun _ g' hg' => ?_
      · by_cases hxb : x = b
        · exact .inr hxb
        · exact .inl (habove x hx ⟨hxb, hlowest x hxc⟩)
      · rintro ((hx | rfl) | ⟨c', hc', hcx'⟩)
        · exact hbelow x (hbc.2.trans hcx) hx
        · exact hbc.not_dominates hcx
        · have heq := hd.children_unique (by simp [hsplit, hc']) hc hcx' hcx
          exact notMem_done (hd.tree.children_nodup (Func.blockGraph_consistent f) b) hsplit
            (heq ▸ hc')
      · rw [firstIn_of_below hhome']
        exact ⟨hp.copies_descend hidom hjoin ((hd.above_iff hreach).2 hhome) hnext, hlast'⟩
      · have heq : (fun x => ((done x ∨ x = b) ∨ ∃ c ∈ past, f.Dominates c x) ∨ f.Dominates c x) =
            fun x => (done x ∨ x = b) ∨ ∃ c' ∈ past ++ [c], f.Dominates c' x := by
          funext x
          simp [or_assoc, or_and_right, exists_or]
        exact heq ▸ hg'
    · simpa using hg
    · have heq : (fun x => (done x ∨ x = b) ∨ ∃ c ∈ d.children b, f.Dominates c x) =
          fun x => done x ∨ f.Dominates b x := by
        funext x
        rw [or_assoc, hd.dominates_iff_children hreach]
      exact heq ▸ hg

end Walk

end Midend
