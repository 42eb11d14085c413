import Midend.Proofs.Promotion.Stage

/-!
Which of the phis of a cell go again. A phi is observed if something other than these phis uses it,
or if it feeds an observed one, and the marking finds these phis and no others. So the result of any
other one is held by such phis only, and nothing holds it once they have no sources, even where they
feed one another in a cycle.
-/

namespace Midend

namespace Func

variable {f : Func} {ours stack marked : List PhiId} {fuel : Nat} {p q : PhiId} {phi : Phi}

def Feeds (f : Func) (q p : PhiId) : Prop :=
  ∃ phi v val, f.phis.get? p = some phi ∧ v ∈ phi.sources.values ∧
    f.values.get? v = some val ∧ val.definition = .phi q

/-- Something other than the phis `ours` needs a phi: an instruction or another phi takes its result,
or it feeds one of `ours` that is needed. -/
inductive Observed (f : Func) (ours : List PhiId) : PhiId → Prop where
  | inst {p : PhiId} {phi : Phi} {i : InstId} {inst : Inst} (hp : f.phis.get? p = some phi)
      (hi : f.insts.get? i = some inst) (hv : phi.result ∈ inst.operands) : Observed f ours p
  | phi {p q : PhiId} {phi psi : Phi} {b : BlockId} (hp : f.phis.get? p = some phi)
      (hq : f.phis.get? q = some psi) (hv : psi.source b = some phi.result) (hother : q ∉ ours) :
      Observed f ours p
  | feeds {p q : PhiId} {phi psi : Phi} {b : BlockId} (hp : f.phis.get? p = some phi)
      (hq : f.phis.get? q = some psi) (hv : psi.source b = some phi.result) (hours : q ∈ ours)
      (hobserved : Observed f ours q) : Observed f ours p

/-- What uses the result of a phi that is not observed is such a phi as well. -/
theorem user_of_not_observed (hp : f.phis.get? p = some phi) (hno : ¬ f.Observed ours p) {u : User}
    (hu : 0 < f.held phi.result u) : ∃ q ∈ ours, ¬ f.Observed ours q ∧ u = .phi q := by
  cases u with
  | inst i =>
    obtain ⟨inst, hi, hv⟩ := operand_of_held hu
    exact absurd (.inst hp hi hv) hno
  | phi q =>
    obtain ⟨psi, b, hq, hv⟩ := source_of_held hu
    by_cases hours : q ∈ ours
    · exact ⟨q, hours, fun hobserved => hno (.feeds hp hq hv hours hobserved), rfl⟩
    · exact absurd (.phi hp hq hv hours) hno

theorem Observed.of_feeds (hf : f.Linked fun _ => False) (hfeeds : f.Feeds q p) (hp : p ∈ ours)
    (h : f.Observed ours p) : f.Observed ours q := by
  obtain ⟨phi, v, val, hphi, hv, hval, hdef⟩ := hfeeds
  obtain ⟨psi, hpsi, rfl⟩ := hf.phi_origin v val q hval hdef
  obtain ⟨b, hb⟩ := OrderedMap.mem_values.1 hv
  exact .feeds hpsi hphi hb hp h

def feeder? (f : Func) (ours : List PhiId) (v : ValueId) : Option PhiId :=
  match (f.values.get? v).map Value.definition with
  | some (.phi q) => if ours.contains q then some q else none
  | _ => none

theorem feeding_ok (ours : List PhiId) (hs : f.SlotsLive) (hp : f.phis.contains p = true) :
    ∃ feeding, (do
      (← f.phi p).sources.values.filterMapM fun v => do
        match (← f.value v).definition with
        | .phi q => return if ours.contains q then some q else none
        | _ => return none) = .ok feeding ∧ ∀ q, q ∈ feeding ↔ f.Feeds q p ∧ q ∈ ours := by
  obtain ⟨phi, hphi⟩ := Option.isSome_iff_exists.1 hp
  have hlive : ∀ v ∈ phi.sources.values, ∃ val, f.values.get? v = some val := by
    intro v hv
    obtain ⟨b, hb⟩ := OrderedMap.mem_values.1 hv
    exact Option.isSome_iff_exists.1 (hs.source p phi b v hphi hb)
  -- The read comes to a filter, as every source is live.
  refine ⟨phi.sources.values.filterMap (f.feeder? ours), bind_eq_ok.2 ⟨phi, phi_eq_ok.2 hphi,
    filterMapM_ok fun v hv => ?_⟩, fun q => ?_⟩
  · obtain ⟨val, hval⟩ := hlive v hv
    refine bind_eq_ok.2 ⟨val, value_eq_ok.2 hval, ?_⟩
    simp only [feeder?, hval, Option.map_some]
    cases val.definition <;> rfl
  · simp only [List.mem_filterMap, feeder?]
    constructor
    · rintro ⟨v, hv, hfrom⟩
      obtain ⟨val, hval⟩ := hlive v hv
      rw [hval, Option.map_some] at hfrom
      cases hdef : val.definition with
      | phi q' =>
        simp only [hdef, Option.ite_none_right_eq_some, Option.some.injEq] at hfrom
        obtain ⟨hmem, rfl⟩ := hfrom
        exact ⟨⟨phi, v, val, hphi, hv, hval, hdef⟩, List.contains_iff_mem.1 hmem⟩
      | _ => simp [hdef] at hfrom
    · rintro ⟨⟨phi', v, val, hphi', hv, hval, hdef⟩, hmem⟩
      obtain rfl := Option.some.inj (hphi.symm.trans hphi')
      exact ⟨v, hv, by simp [hval, hdef, hmem]⟩

/-- Between two rounds of the marking: the marked phis are observed, and what feeds one of them is
marked, unless that one is still on the stack. -/
structure Marking (f : Func) (ours stack marked : List PhiId) : Prop where
  nodup : marked.Nodup
  mem_ours : ∀ p ∈ marked, p ∈ ours
  observed : ∀ p ∈ marked, f.Observed ours p
  mem_marked : ∀ p ∈ stack, p ∈ marked
  closed : ∀ p ∈ marked, p ∉ stack → ∀ q ∈ ours, f.Feeds q p → q ∈ marked

theorem Marking.step (hf : f.Sound) (h : f.Marking ours (p :: stack) marked) {new : List PhiId}
    (hnodup : new.Nodup) (hnew : ∀ q, q ∈ new ↔ (f.Feeds q p ∧ q ∈ ours) ∧ q ∉ marked) :
    f.Marking ours (new.reverse ++ stack) (new ++ marked) where
  nodup := by
    refine List.nodup_append.2 ⟨hnodup, h.nodup, ?_⟩
    rintro q hq _ hq' rfl
    exact ((hnew q).1 hq).2 hq'
  mem_ours q hq := (List.mem_append.1 hq).elim (fun hq => ((hnew q).1 hq).1.2) (h.mem_ours q)
  observed q hq := by
    have hp := h.mem_marked p List.mem_cons_self
    refine (List.mem_append.1 hq).elim (fun hq => ?_) (h.observed q)
    exact .of_feeds hf.linked ((hnew q).1 hq).1.1 (h.mem_ours p hp) (h.observed p hp)
  mem_marked q hq := (List.mem_append.1 hq).elim
    (fun hq => List.mem_append_left _ (List.mem_reverse.1 hq))
    fun hq => List.mem_append_right _ (h.mem_marked q (List.mem_cons_of_mem _ hq))
  closed q hq hno r hr hfeeds := by
    rw [List.mem_append, List.mem_reverse, not_or] at hno
    have hq' := (List.mem_append.1 hq).resolve_left hno.1
    rw [List.mem_append, hnew]
    by_cases hrm : r ∈ marked
    · exact .inr hrm
    · by_cases hqp : q = p
      · exact .inl ⟨⟨hqp ▸ hfeeds, hr⟩, hrm⟩
      · exact .inr (h.closed q hq' (by simp [hqp, hno.2]) r hr hfeeds)

theorem markFeeding_ok (hf : f.Sound) (hs : f.SlotsLive)
    (hours : ∀ p ∈ ours, f.phis.contains p = true)
    (hfuel : ours.length + stack.length < fuel + marked.length)
    (hm : f.Marking ours stack marked) :
    ∃ live, f.markFeeding ours fuel stack marked = .ok live ∧ (∀ p ∈ marked, p ∈ live) ∧
      (∀ p ∈ live, f.Observed ours p) ∧ ∀ p ∈ live, ∀ q ∈ ours, f.Feeds q p → q ∈ live := by
  -- Each phi is marked once at most, so there is fuel for what the stack holds.
  induction fuel generalizing stack marked with
  | zero =>
    have := (hm.nodup.subperm hm.mem_ours).length_le
    omega
  | succ fuel ih =>
    cases stack with
    | nil =>
      exact ⟨marked, rfl, fun _ => id, hm.observed, fun p hp => hm.closed p hp List.not_mem_nil⟩
    | cons p stack =>
      have hp : f.phis.contains p = true :=
        hours p (hm.mem_ours p (hm.mem_marked p List.mem_cons_self))
      obtain ⟨feeding, hfeeding, hmem⟩ := feeding_ok ours hs hp
      let new := feeding.eraseDups.filter fun q => !marked.contains q
      have hnew : ∀ q, q ∈ new ↔ (f.Feeds q p ∧ q ∈ ours) ∧ q ∉ marked := by
        intro q
        simp only [new, List.mem_filter, List.mem_eraseDups, hmem, Bool.not_eq_true',
          List.contains_eq_mem, decide_eq_false_iff_not]
      have hfuel' : ours.length + (new.reverse ++ stack).length <
          fuel + (new ++ marked).length := by
        simp only [List.length_append, List.length_reverse, List.length_cons] at hfuel ⊢
        omega
      obtain ⟨live, hlive, hkept, hall⟩ :=
        ih hfuel' (hm.step hf ((nodup_eraseDups feeding).filter _) hnew)
      refine ⟨live, ?_, fun q hq => hkept q (List.mem_append_right _ hq), hall⟩
      obtain ⟨phi, hphi, hfeeding'⟩ := bind_eq_ok.1 hfeeding
      exact bind_eq_ok.2 ⟨phi, hphi, bind_eq_ok.2 ⟨feeding, hfeeding', hlive⟩⟩

/-- The phis that the marking starts from: something other than `ours` uses the result. -/
theorem observed_ok (hf : f.Sound) (hp : f.phis.get? p = some phi) (ours : List PhiId) :
    ∃ observed, (do
      let value ← f.value (← f.phi p).result
      return value.users.any fun u =>
        match u.1 with
        | .inst _ => true
        | .phi q => !ours.contains q) = .ok observed ∧
      (observed = true → f.Observed ours p) ∧
      (observed = false → ∀ u, 0 < f.held phi.result u → ∃ q ∈ ours, u = .phi q) := by
  obtain ⟨val, hval, -⟩ := hf.linked.phi_result p phi hp
  have hcounted := hf.uses.counted _ val hval
  refine ⟨_, bind_eq_ok.2 ⟨phi, phi_eq_ok.2 hp, bind_eq_ok.2 ⟨val, value_eq_ok.2 hval, rfl⟩⟩,
    fun hyes => ?_, fun hno u hu => ?_⟩
  · obtain ⟨⟨u, n⟩, hmem, hother⟩ := List.any_eq_true.1 hyes
    obtain ⟨hcount, hpos⟩ := (Value.mem_users_iff hcounted).1 hmem
    rw [← hcount, hf.uses.uses _ val u hval] at hpos
    by_contra hnot
    obtain ⟨q, hq, -, rfl⟩ := user_of_not_observed hp hnot hpos
    simp [hq] at hother
  · rw [← hf.uses.uses _ val u hval] at hu
    have hmem := (Value.mem_users_iff hcounted).2 ⟨rfl, hu⟩
    have hfalse := List.any_eq_false.1 hno _ hmem
    cases u with
    | inst i => simp at hfalse
    | phi q => exact ⟨q, by simpa using hfalse, rfl⟩

theorem livePhis_ok (hf : f.Sound) (hs : f.SlotsLive) (hnodup : ours.Nodup)
    (hours : ∀ p ∈ ours, f.phis.contains p = true) :
    ∃ live, f.livePhis ours = .ok live ∧ ∀ p ∈ ours, p ∈ live ↔ f.Observed ours p := by
  have hread : ∀ p ∈ ours, ∃ observed, (do
      let value ← f.value (← f.phi p).result
      return value.users.any fun u =>
        match u.1 with
        | .inst _ => true
        | .phi q => !ours.contains q) = .ok observed ∧
      (observed = true → f.Observed ours p) ∧
      (observed = false → ∀ phi, f.phis.get? p = some phi →
        ∀ u, 0 < f.held phi.result u → ∃ q ∈ ours, u = .phi q) := by
    intro p hp
    obtain ⟨phi, hphi⟩ := Option.isSome_iff_exists.1 (hours p hp)
    obtain ⟨observed, hok, hyes, hno⟩ := observed_ok hf hphi ours
    refine ⟨observed, hok, hyes, fun hfalse phi' hphi' => ?_⟩
    obtain rfl := Option.some.inj (hphi.symm.trans hphi')
    exact hno hfalse
  choose! observed hok hyes hno using hread
  have hfuel : ours.length + (ours.filter observed).reverse.length <
      ours.length + 1 + (ours.filter observed).length := by
    rw [List.length_reverse]
    omega
  have hstart : f.Marking ours (ours.filter observed).reverse (ours.filter observed) :=
    ⟨hnodup.filter _, fun p hp => (List.mem_filter.1 hp).1,
      fun p hp => hyes p (List.mem_filter.1 hp).1 (List.mem_filter.1 hp).2,
      fun p hp => List.mem_reverse.1 hp, fun p hp hno => absurd (List.mem_reverse.2 hp) hno⟩
  obtain ⟨live, hlive, hmarked, hsound, hclosed⟩ := markFeeding_ok hf hs hours hfuel hstart
  refine ⟨live, bind_eq_ok.2 ⟨_, filterM_ok hok, hlive⟩, fun p hp => ⟨hsound p, fun hobserved => ?_⟩⟩
  -- A phi that something else uses is marked at the start, and the others follow from it.
  have huses : ∀ {p phi}, p ∈ ours → f.phis.get? p = some phi →
      ∀ u, (∀ q ∈ ours, u ≠ .phi q) → 0 < f.held phi.result u → p ∈ live := by
    intro p phi hp hphi u hother hu
    refine hmarked p (List.mem_filter.2 ⟨hp, ?_⟩)
    by_contra hfalse
    obtain ⟨q, hq, rfl⟩ := hno p hp (by simpa using hfalse) phi hphi u hu
    exact hother q hq rfl
  induction hobserved with
  | inst hphi hi hv => exact huses hp hphi (.inst _) nofun (held_operand_pos hi hv)
  | phi hphi hpsi hv hother =>
    refine huses hp hphi (.phi _) (fun q hq heq => hother ?_) (held_source_pos hpsi hv)
    rwa [User.phi.inj heq]
  | feeds hphi hpsi hv hq _ ih =>
    obtain ⟨val, hval, hdef⟩ := hf.linked.phi_result _ _ hphi
    refine hclosed _ (ih hq) _ hp ⟨_, _, val, hpsi, OrderedMap.mem_values.2 ⟨_, hv⟩, hval, hdef⟩

end Func

open Cell

/-- Among the phis of `h`, those that are `dead` have lost their sources, and of these some are
gone. -/
structure Pruning (f : Func) (cell : Cell) (joins : Joins) (h : Func) (dead gone : List PhiId)
    (g : Func) : Prop where
  stage : Stage f cell joins g
  insts : g.insts = h.insts
  absent : ∀ p ∈ gone, g.phis.get? p = none
  bare : ∀ p ∈ dead, p ∉ gone → ∃ phi phi', h.phis.get? p = some phi ∧
    g.phis.get? p = some phi' ∧ phi'.result = phi.result ∧ ∀ q, phi'.source q = none
  kept : ∀ p, p ∉ dead → g.phis.get? p = h.phis.get? p

namespace Pruning

variable {f g h : Func} {d : Dominance} {cell : Cell} {joins : Joins} {dead gone : List PhiId}
  {p : PhiId}

theorem empty_ensures (hg : Pruning f cell joins h dead [] g) (hnew : f.phis.get? p = none)
    (hp : h.phis.contains p = true) (hfresh : p ∉ dead) :
    (do (← Edit.query (·.phi p)).sources.keys.forM fun pred =>
          discard (Edit.removePhiSource p pred) : Edit Unit).Ensures g
      fun _ g => Pruning f cell joins h (dead ++ [p]) [] g := by
  obtain ⟨phi, hphi⟩ := Option.isSome_iff_exists.1 hp
  have hphi' := (hg.kept p hfresh).trans hphi
  refine .query_bind (Func.phi_eq_ok.2 hphi') ?_
  -- After the predecessors in `past` the phi has the sources for the others only.
  refine (Edit.Ensures.forM (I := fun past g' => Stage f cell joins g' ∧ g'.insts = g.insts ∧
    (∀ q, q ≠ p → g'.phis.get? q = g.phis.get? q) ∧ ∃ psi, g'.phis.get? p = some psi ∧
      psi.result = phi.result ∧ ∀ q, psi.source q = if q ∈ past then none else phi.source q) _
    (fun past pred rest _ g' hg' => .discard ?_)
    ⟨hg.stage, rfl, fun _ _ => rfl, phi, hphi', rfl, by simp⟩).imp ?_
  · obtain ⟨hstage, hinsts, hother, psi, hpsi, hres, hsource⟩ := hg'
    refine (hstage.removePhiSource_ensures hnew hpsi).imp ?_
    rintro _ k ⟨hk, hkinsts, hkphis⟩
    refine ⟨hk, hkinsts.trans hinsts, fun q hq => ?_,
      { psi with sources := psi.sources.erase pred }, by rw [hkphis, if_pos rfl], hres,
      fun q => ?_⟩
    · rw [hkphis, if_neg hq, hother q hq]
    · have hq : psi.sources.get? q = _ := hsource q
      show (psi.sources.erase pred).get? q = _
      rw [OrderedMap.get?_erase, hq]
      by_cases hqp : q = pred <;> simp [hqp]
  · rintro _ k ⟨hstage, hinsts, hother, psi, hpsi, hres, hsource⟩
    refine ⟨hstage, hinsts.trans hg.insts, by simp, fun q hq _ => ?_, fun q hq => ?_⟩
    · by_cases hqp : q = p
      · refine ⟨phi, psi, hqp ▸ hphi, hqp ▸ hpsi, hres, fun r => ?_⟩
        rw [hsource]
        split
        · rfl
        · rename_i hno
          refine Option.eq_none_iff_forall_ne_some.2 fun v hv => hno ?_
          exact OrderedMap.mem_keys.2 ⟨v, hv⟩
      · rw [hother q hqp]
        exact hg.bare q ((List.mem_append.1 hq).resolve_right (by simpa using hqp)) (by simp)
    · rw [List.mem_append, List.mem_singleton, not_or] at hq
      rw [hother q hq.2, hg.kept q hq.1]

theorem get?_phi (hg : Pruning f cell joins h dead dead g) {phi : Phi}
    (hphi : g.phis.get? p = some phi) : h.phis.get? p = some phi := by
  by_cases hp : p ∈ dead
  · rw [hg.absent p hp] at hphi
    cases hphi
  · rw [← hg.kept p hp]
    exact hphi

theorem held_eq_zero (hg : Pruning f cell joins h dead gone g) {v : ValueId}
    (hheld : ∀ u, 0 < h.held v u → ∃ q ∈ dead, u = .phi q) (u : User) : g.held v u = 0 := by
  cases u with
  | inst i =>
    have hnone : ¬ 0 < h.held v (.inst i) := fun hpos => by
      obtain ⟨q, -, hq⟩ := hheld _ hpos
      cases hq
    rw [Func.held_inst, hg.insts, ← Func.held_inst]
    omega
  | phi q =>
    rw [Func.held_phi]
    by_cases hq : q ∈ dead
    · by_cases hgone : q ∈ gone
      · rw [hg.absent q hgone]
        rfl
      · obtain ⟨-, psi, -, hpsi, -, hsource⟩ := hg.bare q hq hgone
        rw [hpsi]
        refine List.count_eq_zero.2 fun hmem => ?_
        obtain ⟨r, hr⟩ := OrderedMap.mem_values.1 hmem
        exact absurd (hr.symm.trans (hsource r)) (by simp)
    · have hnone : ¬ 0 < h.held v (.phi q) := fun hpos => by
        obtain ⟨q', hq', heq⟩ := hheld _ hpos
        exact hq (User.phi.inj heq ▸ hq')
      rw [hg.kept q hq, ← Func.held_phi]
      omega

/-- A phi goes when it and all that hold it have no sources. -/
theorem remove_ensures (hp : Promoting f d cell joins) (hg : Pruning f cell joins h dead gone g)
    (hnew : f.phis.get? p = none) (hdead : p ∈ dead) (hfresh : p ∉ gone)
    (hheld : ∀ phi, h.phis.get? p = some phi → ∀ u, 0 < h.held phi.result u →
      ∃ q ∈ dead, u = .phi q) :
    (Edit.removePhi p).Ensures g fun _ g => Pruning f cell joins h dead (gone ++ [p]) g := by
  obtain ⟨phi, psi, hphi, hpsi, hres, -⟩ := hg.bare p hdead hfresh
  refine (hg.stage.removePhi_ensures hp hnew hpsi fun u _ => ?_).imp ?_
  · rw [hres]
    exact hg.held_eq_zero (hheld phi hphi) u
  · rintro _ k ⟨hstage, hinsts, hphis⟩
    have hget : ∀ q, k.phis.get? q = if q = p then none else g.phis.get? q := by
      intro q
      rw [hphis, Arena.get?_erase]
    refine ⟨hstage, hinsts.trans hg.insts, fun q hq => ?_, fun q hq hno => ?_, fun q hq => ?_⟩
    · rw [hget]
      split
      · rfl
      · rename_i hqp
        exact hg.absent q ((List.mem_append.1 hq).resolve_right (by simpa using hqp))
    · rw [List.mem_append, List.mem_singleton, not_or] at hno
      rw [hget, if_neg hno.2]
      exact hg.bare q hq hno.1
    · rw [hget, if_neg (by rintro rfl; exact hq hdead)]
      exact hg.kept q hq

end Pruning

/-- Pruning takes those of the phis away that are not observed, and says how many that were. -/
theorem Stage.pruneDeadPhis_ensures {f h : Func} {d : Dominance} {cell : Cell} {joins : Joins}
    {ours : List PhiId} (hp : Promoting f d cell joins) (hs : Stage f cell joins h)
    (hnodup : ours.Nodup)
    (hours : ∀ p ∈ ours, f.phis.get? p = none ∧ h.phis.contains p = true) :
    (Edit.pruneDeadPhis ours).Ensures h fun removed g =>
      let dead := ours.filter fun p => !g.phis.contains p
      Pruning f cell joins h dead dead g ∧ removed = dead.length ∧
        ∀ p ∈ ours, g.phis.contains p = true ↔ h.Observed ours p := by
  obtain ⟨live, hlive, hobserved⟩ :=
    Func.livePhis_ok hs.sound hs.slots hnodup fun p hp => (hours p hp).2
  refine .query_bind hlive ?_
  have hdead : ∀ p, p ∈ ours.filter (fun p => !live.contains p) ↔
      p ∈ ours ∧ ¬ h.Observed ours p := fun p => by
    rw [List.mem_filter]
    exact and_congr_right fun hp => by simp [hobserved p hp]
  have hdistinct : ∀ {done rest : List PhiId} {p : PhiId},
      ours.filter (fun p => !live.contains p) = done ++ p :: rest → p ∉ done := by
    intro done rest p hsplit
    exact notMem_done (hnodup.filter _) hsplit
  refine .bind (.forM (I := fun done g => Pruning f cell joins h done [] g) _
    (fun done p rest hsplit g hg => ?_) ⟨hs, rfl, by simp, by simp, fun _ _ => rfl⟩)
    fun _ g hg => ?_
  · have hmem := ((hdead p).1 (by rw [hsplit]; simp)).1
    exact hg.empty_ensures (hours p hmem).1 (hours p hmem).2 (hdistinct hsplit)
  refine .bind (.forM (I := fun done g => Pruning f cell joins h
    (ours.filter fun p => !live.contains p) done g) _
    (fun done p rest hsplit g hg => ?_) hg) fun _ g hg => ?_
  · have hmem : p ∈ ours.filter fun p => !live.contains p := by rw [hsplit]; simp
    obtain ⟨hp', hno⟩ := (hdead p).1 hmem
    refine hg.remove_ensures hp (hours p hp').1 hmem (hdistinct hsplit) fun phi hphi u hu => ?_
    obtain ⟨q, hq, hqno, rfl⟩ := Func.user_of_not_observed hphi hno hu
    exact ⟨q, (hdead q).2 ⟨hq, hqno⟩, rfl⟩
  · have hkept : ∀ p ∈ ours, g.phis.contains p = true ↔ h.Observed ours p := by
      intro p hp
      by_cases hno : p ∈ ours.filter fun p => !live.contains p
      · simp [Arena.contains, hg.absent p hno, ((hdead p).1 hno).2]
      · rw [Arena.contains, hg.kept p hno]
        exact iff_of_true (hours p hp).2 ((hobserved p hp).1 (by simpa [hp] using hno))
    have heq : (ours.filter fun p => !live.contains p) = ours.filter fun p => !g.phis.contains p :=
      List.filter_congr fun p hp => by
        rw [Bool.eq_iff_iff]
        simp [hobserved p hp, ← hkept p hp]
    exact .pure ⟨heq ▸ hg, by rw [heq], hkept⟩

end Midend
