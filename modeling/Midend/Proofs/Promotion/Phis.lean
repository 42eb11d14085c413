import Midend.Proofs.Promotion.Placement
import Midend.Proofs.Promotion.Renaming

namespace Midend

open Cell

structure Placed (f : Func) (past : List BlockId) (phiAt : OrderedMap BlockId PhiId) (h : Func) :
    Prop where
  sound : h.Sound
  slots : h.SlotsLive
  entry : h.entry = f.entry
  arguments : h.arguments = f.arguments
  limit : h.dominanceLimit = f.dominanceLimit
  dominance : h.dominance = f.dominance
  size : h.blocks.size = f.blocks.size
  insts : h.insts = f.insts
  block : ∀ b, (h.blocks.get? b).map Block.insts = (f.blocks.get? b).map Block.insts
  old : ∀ p phi, f.phis.get? p = some phi → h.phis.get? p = some phi
  phi : ∀ p phi, h.phis.get? p = some phi → f.phis.get? p = some phi ∨ f.phis.get? p = none ∧
    f.values.get? phi.result = none ∧ phi.sources = ∅ ∧ phiAt.get? phi.block = some p
  placed : ∀ b p, phiAt.get? b = some p → f.phis.get? p = none ∧
    ∃ phi, h.phis.get? p = some phi ∧ phi.block = b
  mem_past : ∀ b, b ∈ past ↔ ∃ p, phiAt.get? b = some p
  stays : ∀ v val, f.values.get? v = some val → h.values.get? v = some val
  value : ∀ v val, h.values.get? v = some val → f.values.get? v = some val ∨
    f.values.get? v = none ∧ ∃ p, val.definition = .phi p
  held : ∀ v u, h.held v u = f.held v u
  phis_size : f.phis.size ≤ h.phis.size
  values_size : f.values.size ≤ h.values.size

namespace Placed

variable {f g h : Func} {d : Dominance} {cell : Cell} {past : List BlockId}
  {phiAt : OrderedMap BlockId PhiId} {b c : BlockId} {v : ValueId}

theorem start (hf : f.Sound) (hs : f.SlotsLive) : Placed f [] ∅ f where
  sound := hf
  slots := hs
  entry := rfl
  arguments := rfl
  limit := rfl
  dominance := rfl
  size := rfl
  insts := rfl
  block _ := rfl
  old _ _ hp := hp
  phi _ _ hp := .inl hp
  placed b p hp := by simp at hp
  mem_past b := by simp
  stays _ _ hv := hv
  value _ _ hv := .inl hv
  held _ _ := rfl
  phis_size := Nat.le_refl _
  values_size := Nat.le_refl _

theorem withPhi (hp : Placed f past phiAt h) (hnew : b ∉ past) (hsound : (h.withPhi b).Sound) :
    Placed f (past ++ [b]) (phiAt.insert b h.phis.next) (h.withPhi b) := by
  have hphis : ∀ q, (h.withPhi b).phis.get? q =
      if q = h.phis.next then some { block := b, result := h.values.next } else h.phis.get? q :=
    fun q => Arena.get?_push _ _ q
  have hvalues : ∀ v, (h.withPhi b).values.get? v = if v = h.values.next then
      some { kind := .value, definition := .phi h.phis.next } else h.values.get? v :=
    fun v => Arena.get?_push _ _ v
  -- What is next in `h` is not in `f` either, since the arenas only grow.
  have hphiFresh : f.phis.get? h.phis.next = none :=
    Arena.get?_eq_none_of_size_le hp.phis_size
  have hvalueFresh : f.values.get? h.values.next = none :=
    Arena.get?_eq_none_of_size_le hp.values_size
  have hother : ∀ c p, phiAt.get? c = some p → c ≠ b := by
    rintro c p hc rfl
    exact hnew ((hp.mem_past c).2 ⟨p, hc⟩)
  exact
    { sound := hsound
      slots := hp.slots.congr (Func.held_withPhi h b) fun v hv => Func.contains_push _ hv
      entry := hp.entry
      arguments := hp.arguments
      limit := hp.limit
      dominance := hp.dominance
      size := (Arena.size_modify _ _ _).trans hp.size
      insts := hp.insts
      block := fun c => by
        rw [← hp.block c]
        show ((h.blocks.modify b _).get? c).map _ = _
        rw [Arena.get?_modify]
        split
        · rw [Option.map_map]
          rfl
        · rfl
      old := fun q phi hq => by
        rw [hphis, if_neg]
        · exact hp.old q phi hq
        · rintro rfl
          rw [hphiFresh] at hq
          cases hq
      phi := fun q phi hq => by
        rw [hphis] at hq
        split at hq
        · subst q
          obtain rfl := Option.some.inj hq
          refine .inr ⟨hphiFresh, hvalueFresh, rfl, ?_⟩
          rw [OrderedMap.get?_insert, if_pos rfl]
        · refine (hp.phi q phi hq).imp_right fun ⟨hnone, hres, hsources, hat⟩ =>
            ⟨hnone, hres, hsources, ?_⟩
          rw [OrderedMap.get?_insert, if_neg (hother _ _ hat)]
          exact hat
      placed := fun c q hc => by
        rw [OrderedMap.get?_insert] at hc
        split at hc
        · subst c
          obtain rfl := Option.some.inj hc
          exact ⟨hphiFresh, _, by rw [hphis, if_pos rfl], rfl⟩
        · obtain ⟨hnone, phi, hphi, hblock⟩ := hp.placed c q hc
          refine ⟨hnone, phi, ?_, hblock⟩
          rw [hphis, if_neg]
          · exact hphi
          · rintro rfl
            rw [Arena.get?_next] at hphi
            cases hphi
      mem_past := fun c => by
        rw [List.mem_append, List.mem_singleton, hp.mem_past]
        simp only [OrderedMap.get?_insert]
        by_cases hcb : c = b
        · simp [hcb]
        · simp [hcb]
      stays := fun v val hv => by
        rw [hvalues, if_neg]
        · exact hp.stays v val hv
        · rintro rfl
          rw [hvalueFresh] at hv
          cases hv
      value := fun v val hv => by
        rw [hvalues] at hv
        split at hv
        · subst v
          obtain rfl := Option.some.inj hv
          exact .inr ⟨hvalueFresh, _, rfl⟩
        · exact hp.value v val hv
      held := fun v u => by rw [Func.held_withPhi, hp.held]
      phis_size := Nat.le_succ_of_le hp.phis_size |>.trans_eq (Arena.size_push _ _).symm
      values_size := Nat.le_succ_of_le hp.values_size |>.trans_eq (Arena.size_push _ _).symm }

theorem step (hp : Placed f past phiAt h) (hb : h.hasBlock b = true) (hnew : b ∉ past) :
    (Edit.addPhi b).Ensures h fun p g => Placed f (past ++ [b]) (phiAt.insert b p) g := by
  obtain ⟨p, g, hrun, rfl, rfl⟩ := Edit.addPhi_ensures hb
  have hsound := Edit.addPhi_sound hp.sound b
  rw [hrun] at hsound
  exact ⟨_, _, hrun, hp.withPhi hnew hsound⟩

def joins (phiAt : OrderedMap BlockId PhiId) (h : Func) : Joins := fun b =>
  (phiAt.get? b).bind fun p => (h.phis.get? p).map Phi.result

theorem joins_eq_some (hp : Placed f past phiAt h) : joins phiAt h b = some v ↔
    ∃ p phi, phiAt.get? b = some p ∧ h.phis.get? p = some phi ∧ phi.block = b ∧
      phi.result = v := by
  unfold joins
  rw [Option.bind_eq_some_iff]
  constructor
  · rintro ⟨p, hb, hv⟩
    obtain ⟨-, phi, hphi, hblock⟩ := hp.placed b p hb
    rw [hphi] at hv
    exact ⟨p, phi, hb, hphi, hblock, Option.some.inj hv⟩
  · rintro ⟨p, phi, hb, hphi, -, rfl⟩
    exact ⟨p, hb, by rw [hphi]; rfl⟩

theorem promoting (hc : Promotable f d cell) (hp : Placed f past phiAt h)
    (hbelow : ∀ b ∈ past, f.StrictlyDominates cell.home b)
    (hclosed : ∀ y q b, (∃ e ∈ f.instsOf y, e.2.opcode = .setRef ∧ cell.value ∈ e.2.operands) ∨
      y ∈ past → f.Dominates y q → f.Edge q b → ¬ f.StrictlyDominates y b →
      f.StrictlyDominates cell.home b → b ∈ past) :
    Promoting f d cell (joins phiAt h) where
  toPromotable := hc
  join_fresh b v hj := by
    obtain ⟨p, phi, hb, hphi, -, rfl⟩ := hp.joins_eq_some.1 hj
    rcases hp.phi p phi hphi with hold | ⟨-, hfresh, -⟩
    · rw [(hp.placed b p hb).1] at hold
      cases hold
    · exact hfresh
  join_unique b c v hb hc := by
    obtain ⟨p, phi, -, hphi, rfl, hres⟩ := hp.joins_eq_some.1 hb
    obtain ⟨q, psi, -, hpsi, rfl, hres'⟩ := hp.joins_eq_some.1 hc
    obtain ⟨val, hval, hdef⟩ := hp.sound.linked.phi_result p phi hphi
    obtain ⟨val', hval', hdef'⟩ := hp.sound.linked.phi_result q psi hpsi
    rw [hres] at hval
    rw [hres', hval] at hval'
    obtain rfl := Option.some.inj hval'
    obtain rfl := Definition.phi.inj (hdef.symm.trans hdef')
    rw [Option.some.inj (hphi.symm.trans hpsi)]
  join_below b v hj := by
    obtain ⟨p, phi, hb, -⟩ := hp.joins_eq_some.1 hj
    exact hbelow b ((hp.mem_past b).2 ⟨p, hb⟩)
  join_closed y q b hy hyq hqb hyb hb := by
    -- A block with a join value is one that got a phi.
    have hy' : (∃ e ∈ f.instsOf y, e.2.opcode = .setRef ∧ cell.value ∈ e.2.operands) ∨
        y ∈ past := by
      refine hy.imp_right ?_
      rintro ⟨v, hv⟩
      obtain ⟨p, phi, hat, -⟩ := hp.joins_eq_some.1 hv
      exact (hp.mem_past y).2 ⟨p, hat⟩
    obtain ⟨p, hat⟩ := (hp.mem_past b).1 (hclosed y q b hy' hyq hqb hyb hb)
    obtain ⟨-, phi, hphi, hblock⟩ := hp.placed b p hat
    exact ⟨_, hp.joins_eq_some.2 ⟨p, phi, hat, hphi, hblock, rfl⟩⟩

/-- Phis without sources make a stage. -/
theorem stage (hp : Placed f past phiAt h) (hq : Promoting f d cell (joins phiAt h)) :
    Stage f cell (joins phiAt h) h where
  sound := hp.sound
  slots := hp.slots
  entry := hp.entry
  arguments := hp.arguments
  limit := hp.limit
  dominance := hp.dominance
  size := hp.size
  block b := by
    rw [hp.block, hp.insts]
    exact hq.stage.block b
  inst i inst hi := hq.stage.inst i inst (hp.insts ▸ hi)
  gone i inst hi hnone := hq.stage.gone i inst hi (hp.insts ▸ hnone)
  phi p phi hphi := by
    rcases hp.phi p phi hphi with hold | ⟨hnew, -, hsources, hat⟩
    · exact hq.stage.phi p phi hold
    · refine .inr ⟨hnew, hp.joins_eq_some.2 ⟨p, phi, hat, hphi, rfl, rfl⟩, fun q v hv => ?_⟩
      rw [Phi.source, hsources, OrderedMap.get?_empty] at hv
      cases hv
  kept p phi hphi := ⟨phi, hp.old p phi hphi⟩
  value v val hv := (hp.value v val hv).imp_left fun hold => ⟨val, hold, rfl⟩
  stays v hv hnone := by
    obtain ⟨val, hval⟩ := Option.isSome_iff_exists.1 hv
    rw [hp.stays v val hval] at hnone
    cases hnone
  held u hu := (hp.held _ u).trans hu

theorem renamed (hp : Placed f past phiAt h) (hq : Promoting f d cell (joins phiAt h)) (j : Nat) :
    Renamed f cell (joins phiAt h) phiAt j (fun _ => False) h where
  dissolving :=
    { stage := hp.stage hq
      freed := fun i hi => by simp [Visited] at hi
      pending := fun i hi _ => hp.insts ▸ hi
      joined := fun b v hj => by
        obtain ⟨p, phi, -, hphi, hblock, hres⟩ := hp.joins_eq_some.1 hj
        exact ⟨p, phi, hphi, hblock, hres⟩ }
  phis :=
    { added := fun b p hb => by
        obtain ⟨hnew, phi, hphi, hblock⟩ := hp.placed b p hb
        exact ⟨hnew, phi, hphi, hblock, hp.joins_eq_some.2 ⟨p, phi, hb, hphi, hblock, rfl⟩⟩
      all := fun b v hj => by
        obtain ⟨p, -, hb, -⟩ := hp.joins_eq_some.1 hj
        exact ⟨p, hb⟩ }
  sources _ _ _ := False.elim

end Placed

section Place

variable {f h : Func} {d : Dominance} {cell : Cell}

theorem Promotable.placement_spec (hp : Promotable f d cell) (stores : List BlockId) :
    (∀ b ∈ d.iteratedFrontier stores (d.strictlyDominates cell.home),
      f.StrictlyDominates cell.home b) ∧
    ∀ y q b, y ∈ stores ∨ y ∈ d.iteratedFrontier stores (d.strictlyDominates cell.home) →
      f.Dominates y q → f.Edge q b → ¬ f.StrictlyDominates y b →
      f.StrictlyDominates cell.home b →
      b ∈ d.iteratedFrontier stores (d.strictlyDominates cell.home) := by
  have hd := hp.verified.dominance
  have hcons := Func.blockGraph_consistent f
  have hreach : ∀ b, f.Reachable b → b.index < f.blockGraph.toFlowGraph.size := by
    intro b hb
    show b.index < f.blockGraph.size
    rw [Func.blockGraph_size]
    exact hp.sound.linked.index_lt hd (hd.isReachable_iff.2 hb)
  obtain ⟨hkept, hclosed⟩ :=
    Dominance.iteratedFrontier_spec hd stores (d.strictlyDominates cell.home)
  refine ⟨fun b hb => hd.strictlyDominates_iff.1 (hkept b hb), fun y q b hy hyq hqb hyb hb => ?_⟩
  refine hclosed y hy b ?_ (hd.strictlyDominates_iff.2 hb)
  rw [Dominance.frontier, hd.frontiers]
  refine FlowGraph.mem_frontiers_of_edge hcons hd.tree (fun x hx => ?_) (hd.entry ▸ hyq) hqb ?_
  · rw [hd.entry] at hx
    exact Nat.lt_of_lt_of_le (hreach x hx) (Nat.le_max_left _ _)
  · rw [hd.entry]
    exact hyb

theorem Placed.all_ensures (hf : f.Sound) (hs : f.SlotsLive) {blocks : List BlockId}
    (hnodup : blocks.Nodup) (hlive : ∀ b ∈ blocks, f.hasBlock b = true) :
    (blocks.foldlM (fun m b => return m.insert b (← Edit.addPhi b)) ∅ :
      Edit (OrderedMap BlockId PhiId)).Ensures f fun phiAt g => Placed f blocks phiAt g := by
  refine .foldlM blocks (fun past b rest hsplit phiAt h hp => ?_) (.start hf hs)
  have hnew : b ∉ past := notMem_done hnodup hsplit
  have hb : h.hasBlock b = true := by
    have := hlive b (by simp [hsplit])
    rw [Func.hasBlock, Arena.contains, ← Option.isSome_map (f := Block.insts), hp.block,
      Option.isSome_map]
    exact this
  exact .bind (hp.step hb hnew) fun p g hg => .pure hg

end Place

end Midend
