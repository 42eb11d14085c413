import Midend.Proofs.Promotion.Tries
import Midend.Proofs.Promotion.Verdicts

/-!
One run over all cells. A cell that nothing stores in another cell is tried once and for all: what is
promoted after it does not touch its uses. A cell that was stored in others, and in none of those that
are left, can be promotable after the run; every other cell is left alone by a second run as well.
-/

namespace Midend

open Cell Work

variable {f g h : Func} {d : Dominance} {cell : Cell} {a : ValueId} {i : InstId} {captured : Bool}

/-- The instruction puts the value into a cell, as its first content or by a store. -/
def Inst.Deposits (inst : Inst) (a : ValueId) : Prop :=
  inst.opcode = .newRef ∧ inst.operands[0]? = some a ∨
    inst.opcode = .setRef ∧ inst.operands[1]? = some a

instance (inst : Inst) (a : ValueId) : Decidable (inst.Deposits a) :=
  inferInstanceAs (Decidable (_ ∨ _))

namespace Func

def Deposited (f : Func) (a : ValueId) : Prop :=
  ∃ i inst, f.insts.get? i = some inst ∧ inst.Deposits a

theorem any_deposits_iff :
    (f.insts.live.any fun i => (f.insts.get? i).any fun inst => decide (inst.Deposits a)) = true ↔
      f.Deposited a := by
  simp only [List.any_eq_true, Option.any_eq_true, decide_eq_true_eq]
  constructor
  · rintro ⟨i, -, inst, hi, hdep⟩
    exact ⟨i, inst, hi, hdep⟩
  · rintro ⟨i, inst, hi, hdep⟩
    exact ⟨i, Arena.mem_live.2 (Option.isSome_iff_exists.2 ⟨inst, hi⟩), inst, hi, hdep⟩

instance (f : Func) (a : ValueId) : Decidable (f.Deposited a) := decidable_of_iff _ any_deposits_iff

/-- What the instruction yields is put into no cell. -/
def Lone (f : Func) (i : InstId) : Prop :=
  ∀ inst a, f.insts.get? i = some inst → inst.result = some a → ¬ f.Deposited a

/-- From `f` to `g` instructions have gone at most; the lone cells that are left are lone still, and
left alone if they were. -/
structure Onward (captured : Bool) (f g : Func) : Prop where
  inst : ∀ i inst', g.insts.get? i = some inst' →
    ∃ inst, f.insts.get? i = some inst ∧ inst'.shape = inst.shape
  lone : ∀ i, g.Creates i → f.Lone i → g.Lone i
  spares : ∀ i, g.Creates i → f.Lone i → f.Spares captured i → g.Spares captured i

theorem KeepsUses.deposited (hk : f.KeepsUses a g) (hg : g.Deposited a) : f.Deposited a := by
  obtain ⟨i, inst', hi', hdep⟩ := hg
  obtain ⟨inst, hi, hshape, hslots⟩ := hk.inst i inst' hi'
  obtain ⟨hop, -⟩ := Inst.mk.inj hshape
  refine ⟨i, inst, hi, ?_⟩
  rw [Inst.Deposits, hop, hslots, hslots] at hdep
  exact hdep

namespace Onward

theorem creates (ho : f.Onward captured g) (hi : g.Creates i) : f.Creates i := by
  obtain ⟨inst', hi', hop⟩ := hi
  obtain ⟨inst, hinst, hshape⟩ := ho.inst i inst' hi'
  exact ⟨inst, hinst, (congrArg Inst.opcode hshape).symm.trans hop⟩

theorem trans (ho : f.Onward captured g) (ho' : g.Onward captured h) : f.Onward captured h where
  inst i inst'' hi'' := by
    obtain ⟨inst', hi', hshape'⟩ := ho'.inst i inst'' hi''
    obtain ⟨inst, hi, hshape⟩ := ho.inst i inst' hi'
    exact ⟨inst, hi, hshape'.trans hshape⟩
  lone i hi hlone := ho'.lone i hi (ho.lone i (ho'.creates hi) hlone)
  spares i hi hlone hs := by
    have hg := ho'.creates hi
    exact ho'.spares i hi (ho.lone i hg hlone) (ho.spares i hg hlone hs)

theorem of_sameButCache (hf : f.Coherent) (hg : g.Coherent) (hfg : f.SameButCache g) :
    f.Onward captured g where
  inst i inst' hi' := by
    obtain ⟨x, rfl⟩ := hfg
    exact ⟨inst', hi', rfl⟩
  lone i _ hlone := by
    obtain ⟨x, rfl⟩ := hfg
    exact hlone
  spares i _ _ hs := hs.sameButCache hf hg hfg

end Onward

end Func

namespace Promotable

/-- A lone cell is a bystander of every other one. -/
theorem bystander (hp : Promotable f d cell) {inst : Inst} (hi : f.insts.get? i = some inst)
    (hop : inst.opcode = .newRef) (hres : inst.result = some a) (hlone : ¬ f.Deposited a)
    (hne : i ≠ cell.creation) : cell.Bystander f a := by
  have hunique : ∀ {j other}, f.insts.get? j = some other → other.result = some a → j = i := by
    intro j other hj hr
    obtain ⟨val, hval, hdef⟩ := hp.sound.linked.inst_result i inst a hi hres
    obtain ⟨val', hval', hdef'⟩ := hp.sound.linked.inst_result j other a hj hr
    rw [Option.some.inj (hval'.symm.trans hval), hdef] at hdef'
    exact (Definition.inst.inj hdef').symm
  have hvalue : a ≠ cell.value := by
    rintro rfl
    obtain ⟨other, hj, -, hr, -⟩ := hp.isIn.creation
    exact hne (hunique hj hr).symm
  refine ⟨⟨i, inst, hi, hres⟩, fun j other hj hdis hinv => ?_⟩
  have hmem : a ∈ other.operands := by
    refine hinv.resolve_right fun hr => ?_
    obtain rfl := hunique hj hr
    obtain rfl := Option.some.inj (hi.symm.trans hj)
    rcases hdis with heq | ⟨-, hop' | hop'⟩
    · exact hne heq
    · simp [hop] at hop'
    · simp [hop] at hop'
  have harity := (hp.formed j other hj).arity
  refine hlone ⟨j, other, hj, ?_⟩
  rcases hdis with rfl | ⟨hc, hload | hstore⟩
  · obtain ⟨other', hj', hnew, -⟩ := hp.isIn.creation
    obtain rfl := Option.some.inj (hj.symm.trans hj')
    rw [hnew] at harity
    obtain ⟨v, hops⟩ := List.length_eq_one_iff.1 (beq_iff_eq.1 harity)
    rw [hops, List.mem_singleton] at hmem
    exact .inl ⟨hnew, by rw [hops, hmem]; rfl⟩
  · rw [hload] at harity
    obtain ⟨c, hops⟩ := List.length_eq_one_iff.1 (beq_iff_eq.1 harity)
    rw [hops, List.mem_singleton] at hmem hc
    exact absurd (hmem.trans hc.symm) hvalue
  · rw [hstore] at harity
    obtain ⟨c, w, hops⟩ := List.length_eq_two.1 (beq_iff_eq.1 harity)
    rcases hp.with_joins.access (e := (j, other)) hj hc with ⟨hop', -⟩ | ⟨-, hhead, -⟩ | ⟨_, hop'⟩
    · simp [hstore] at hop'
    · simp only [hops, List.head?_cons, Option.some.injEq] at hhead
      simp only [hops, hhead, List.mem_cons, hvalue, List.not_mem_nil, or_false, false_or] at hmem
      exact .inr ⟨hstore, by rw [hops, hmem]; rfl⟩
    · simp [hstore] at hop'

theorem takeOut_keepsUses (hp : Promotable f d cell) (hb : cell.Bystander f a) {outcome : Outcome}
    (hrun : (Edit.takeOut d cell).apply f = (.ok outcome, g)) : f.KeepsUses a g := by
  have hends : Ends True (Edit.takeOut d cell) f fun _ g => f.KeepsUses a g :=
    .bind (Passing.dissolve_ends hp hb) fun _ _ hh =>
      .bind (hh.removeCreation_ends hp hb) fun _ _ hg => .pure hg
  exact ends_true.1 hends outcome g hrun

theorem not_deposited (hp : Promotable f d cell) : ¬ f.Deposited cell.value := by
  rintro ⟨j, other, hj, ⟨hop, hslot⟩ | ⟨hop, hslot⟩⟩
  all_goals
    rcases hp.with_joins.access (e := (j, other)) hj (List.mem_of_getElem? hslot) with
      ⟨hop', -⟩ | ⟨hop', -, hne⟩ | ⟨_, hop'⟩
  · simp [hop] at hop'
  · simp [hop] at hop'
  · simp [hop] at hop'
  · simp [hop] at hop'
  · exact hne hslot
  · simp [hop] at hop'

end Promotable

namespace Func

theorem Accepted.verify (ha : f.Accepted d) : (Edit.verify.apply f).1 = .ok () := by
  have hd := ha.sound.coherent d ha.cached
  have hself : { f with dominance := some d } = f := by rw [← ha.cached]
  rw [Edit.verify_apply, Edit.dominance_apply ha.sound.coherent hd, hself]
  simp [Except.toOption, ha.clean]

variable (hf : f.Built) (hv : (Edit.verify.apply f).1 = .ok ())
include hf hv

theorem Built.spares_or_promotable (hi : f.insts.contains i = true) : f.Spares captured i ∨
    ∃ d cell, cell.creation = i ∧ Promotable { f with dominance := some d } d cell := by
  obtain ⟨d, -, ⟨why, -, hrun⟩ | ⟨cell, heq, -, hp, -⟩⟩ := Edit.promoteCell_cases hf hv captured hi
  · exact .inl ⟨why, congrArg Prod.fst hrun⟩
  · exact .inr ⟨d, cell, heq, hp⟩

theorem Built.spares_of_deposited {inst : Inst} (hi : f.insts.get? i = some inst)
    (hres : inst.result = some a) (ha : f.Deposited a) : f.Spares captured i := by
  refine (hf.spares_or_promotable hv (Option.isSome_iff_exists.2 ⟨inst, hi⟩)).resolve_right ?_
  rintro ⟨d, cell, rfl, hp⟩
  obtain ⟨inst', hi', -, hres', -⟩ := hp.isIn.creation
  obtain rfl := Option.some.inj (hi.symm.trans hi')
  obtain rfl := Option.some.inj (hres.symm.trans hres')
  exact hp.not_deposited ha

theorem Built.spares_of_unreachable {inst : Inst} (hi : f.insts.get? i = some inst)
    (hb : ¬ f.Reachable inst.block) : f.Spares captured i := by
  refine (hf.spares_or_promotable hv (Option.isSome_iff_exists.2 ⟨inst, hi⟩)).resolve_right ?_
  rintro ⟨d, cell, rfl, hp⟩
  obtain ⟨inst', hi', -, -, -, hblock⟩ := hp.isIn.creation
  obtain rfl := Option.some.inj (hi.symm.trans hi')
  exact hb (hblock ▸ hp.with_joins.home_reachable)

end Func

theorem Func.Formed.creation (hf : f.Formed) {inst : Inst} (hi : f.insts.get? i = some inst)
    (hop : inst.opcode = .newRef) : inst.operands ≠ [] ∧ ∃ a, inst.result = some a := by
  obtain ⟨harity, hresult⟩ := hf i inst hi
  rw [hop] at harity hresult
  refine ⟨?_, Option.isSome_iff_exists.1 hresult⟩
  rintro hnil
  rw [hnil] at harity
  cases harity

theorem Func.SameButCache.eq_of_cached (hfg : f.SameButCache g) (hf : f.Coherent) (hg : g.Coherent)
    (hcf : f.dominance.isSome) (hcg : g.dominance.isSome) : g = f := by
  obtain ⟨x, rfl⟩ := hfg
  obtain ⟨d, hd⟩ := Option.isSome_iff_exists.1 hcf
  obtain ⟨d', rfl⟩ := Option.isSome_iff_exists.1 hcg
  have hsame : d' = d := Except.ok.inj ((hg d' rfl).symm.trans (hf d hd))
  rw [hsame, ← hd]

theorem Promotable.onward (hp : Promotable { f with dominance := some d } d cell)
    (hf : f.Coherent) (hg : g.Formed) (hpromoted : Promoted { f with dominance := some d } d cell g)
    {outcome : Outcome} (hrun : (Edit.takeOut d cell).apply { f with dominance := some d } =
      (.ok outcome, g)) : f.Onward captured g := by
  obtain ⟨joins, -, hdissolved, hgone⟩ := hpromoted
  have hs := hdissolved.stage
  -- A lone cell that is left is a bystander.
  have hkeeps : ∀ i, g.Creates i → f.Lone i → ∃ inst inst' a, f.insts.get? i = some inst ∧
      g.insts.get? i = some inst' ∧ inst.opcode = .newRef ∧ inst'.opcode = .newRef ∧
      inst.result = some a ∧ inst'.result = some a ∧
      Func.KeepsUses a { f with dominance := some d } g := by
    rintro i ⟨inst', hi', hop'⟩ hlone
    obtain ⟨inst, hi, hshape, -⟩ := hs.inst i inst' hi'
    obtain ⟨hop, -, hres, -⟩ := Inst.mk.inj hshape
    rw [hop'] at hop
    obtain ⟨-, a, ha⟩ := hp.formed.creation hi hop.symm
    refine ⟨inst, inst', a, hi, hi', hop.symm, hop', ha, hres.trans ha, ?_⟩
    refine hp.takeOut_keepsUses (hp.bystander hi hop.symm ha (hlone inst a hi ha) ?_) hrun
    rintro rfl
    rw [hgone] at hi'
    cases hi'
  refine ⟨fun i inst' hi' => ?_, fun i hcreates hlone => ?_, fun i hcreates hlone hspares => ?_⟩
  · obtain ⟨inst, hi, hshape, -⟩ := hs.inst i inst' hi'
    exact ⟨inst, hi, hshape⟩
  · obtain ⟨inst, inst', a, hi, hi', -, -, hres, hres', hk⟩ := hkeeps i hcreates hlone
    intro inst₀ a₀ hi₀ hres₀ hdep
    obtain rfl := Option.some.inj (hi'.symm.trans hi₀)
    obtain rfl := Option.some.inj (hres'.symm.trans hres₀)
    exact hlone inst a hi hres (hk.deposited hdep)
  · obtain ⟨inst, inst', a, hi, hi', hop, hop', hres, -, hk⟩ := hkeeps i hcreates hlone
    have hd : f.computeDominance f.dominanceLimit = .ok d := hp.sound.coherent d rfl
    have hd' : g.computeDominance g.dominanceLimit = .ok d := hs.sound.coherent d hs.dominance
    have hfollows : Verdict.Follows (f.promotable captured d i) (g.promotable captured d i) :=
      hs.promotable_follows hp.sound hk hi hi' hop hres (hp.formed.creation hi hop).1
        (hg.creation hi' hop').1
    obtain ⟨why, hwhy⟩ := (hf.spares_iff hd).1 hspares
    exact (hs.sound.coherent.spares_iff hd').2 ⟨why, hfollows why hwhy⟩

namespace Edit

/-- One try: what was lone and left alone stays so, and so does the cell that was tried. If that is
left alone, only the cache changes. -/
theorem promoteCell_onward (hf : f.Built) (hv : (verify.apply f).1 = .ok ()) (captured : Bool)
    (hi : f.Creates i) : (promoteCell captured i).Ensures f fun outcome g =>
      g.Built ∧ (verify.apply g).1 = .ok () ∧ g.dominance.isSome ∧
      (∀ j ≠ i, f.Creates j → g.Creates j) ∧
      f.Onward captured g ∧ (g.Creates i → g.Spares captured i) ∧
      (f.Spares captured i → f.SameButCache g ∧ ∃ why, outcome = .skipped why) := by
  obtain ⟨inst, hinst, -⟩ := hi
  have hlive : f.insts.contains i = true := Option.isSome_iff_exists.2 ⟨inst, hinst⟩
  have hkeeps := promoteCell_keeps (fun c _ hk => hk.run c) captured i f hf
  obtain ⟨d, ha, ⟨why, -, hrun⟩ | ⟨cell, rfl, -, hp, hrun⟩⟩ :=
    promoteCell_cases hf hv captured hlive
  · rw [hrun] at hkeeps
    have hsame : f.SameButCache { f with dominance := some d } := ⟨some d, rfl⟩
    have hspares : f.Spares captured i := ⟨why, congrArg Prod.fst hrun⟩
    refine ⟨_, _, hrun, hkeeps, ha.verify, rfl, fun _ _ hj => hj,
      .of_sameButCache hf.sound.coherent hkeeps.sound.coherent hsame, fun _ => ?_,
      fun _ => ⟨hsame, why, rfl⟩⟩
    exact hspares.sameButCache hf.sound.coherent hkeeps.sound.coherent hsame
  · obtain ⟨_, g, hrun', ⟨how, rfl⟩, hg⟩ := hp.takeOut_ensures
    rw [hrun, hrun'] at hkeeps
    refine ⟨_, g, hrun.trans hrun', hkeeps, hg.verify ha, ?_, fun j hne hj => hg.creates hne hj,
      hp.onward hf.sound.coherent hkeeps.formed hg hrun', ?_, ?_⟩
    · obtain ⟨joins, -, hdissolved, -⟩ := hg
      rw [hdissolved.stage.dominance]
      rfl
    · rintro ⟨inst', hi', -⟩
      obtain ⟨-, -, -, hgone⟩ := hg
      rw [hgone] at hi'
      cases hi'
    · rintro ⟨why, hwhy⟩
      rw [hrun, hrun'] at hwhy
      cases hwhy

theorem promoteAll_ensures {I : List InstId → List InstId → PromotionStats → Func → Prop}
    (hcells : cells.Ensures f fun is g => I is [] {} g)
    (hstep : ∀ is done i rest, is = done ++ i :: rest → ∀ stats h, I is done stats h →
      (promoteCell captured i).Ensures h fun outcome g =>
        ∀ removed, I is (done ++ [i]) (stats.add removed outcome) g) :
    (promoteAll captured).Ensures f fun stats g => ∃ is, I is is stats g := by
  refine .bind hcells fun is g hg => ?_
  refine (Ensures.foldlM (I := I is) is (fun done i rest hsplit stats h hh => ?_) hg).imp
    fun stats g hg => ⟨is, hg⟩
  obtain ⟨outcome, g, hrun, hg⟩ := hstep is done i rest hsplit stats h hh
  refine ⟨stats.add (h.insts.count - g.insts.count) outcome, g, ?_, hg _⟩
  simp only [promoteCounted, apply_bind, apply_get, hrun, apply_pure]

structure Tried (captured : Bool) (f : Func) (is done : List InstId) (h : Func) : Prop where
  built : h.Built
  verifies : (verify.apply h).1 = .ok ()
  cached : h.dominance.isSome
  nodup : is.Nodup
  ahead : ∀ i ∈ is, i ∉ done → h.Creates i
  onward : f.Onward captured h
  unlisted : ∀ i, f.Creates i → i ∉ is → f.Spares captured i
  spared : ∀ i ∈ done, h.Creates i → f.Lone i → h.Spares captured i

theorem Tried.start (hf : f.Built) (hv : (verify.apply f).1 = .ok ()) :
    cells.Ensures f fun is g => Tried captured f is [] g ∧ f.SameButCache g := by
  obtain ⟨d, hrun, ha⟩ := hf.accepted hv
  have hd : f.computeDominance f.dominanceLimit = .ok d := ha.sound.coherent d rfl
  have hbuilt := hf.run .dominance
  rw [Call.run, Call.edit, apply_discard, hrun] at hbuilt
  refine (cells_ensures hf.sound hd).imp ?_
  rintro is g ⟨rfl, hnodup, hmem⟩
  have hsame : f.SameButCache { f with dominance := some d } := ⟨some d, rfl⟩
  refine ⟨⟨hbuilt, ha.verify, rfl, hnodup, fun i hi _ => ?_,
    .of_sameButCache hf.sound.coherent ha.sound.coherent hsame, ?_, by simp⟩, hsame⟩
  · obtain ⟨inst, hinst, hop, -⟩ := (hmem i).1 hi
    exact ⟨inst, hinst, hop⟩
  · rintro i ⟨inst, hinst, hop⟩ hi
    exact hf.spares_of_unreachable hv hinst fun hb => hi ((hmem i).2 ⟨inst, hinst, hop, hb⟩)

theorem Tried.step {is done rest : List InstId} (hh : Tried captured f is done h)
    (hsplit : is = done ++ i :: rest) :
    (promoteCell captured i).Ensures h fun outcome g => Tried captured f is (done ++ [i]) g ∧
      (h.Spares captured i → h.SameButCache g ∧ ∃ why, outcome = .skipped why) := by
  have hi : h.Creates i := hh.ahead i (by simp [hsplit]) (notMem_done hh.nodup hsplit)
  refine (promoteCell_onward hh.built hh.verifies captured hi).imp ?_
  rintro outcome g ⟨hbuilt, hverifies, hcached, hother, honward, hspares, hskip⟩
  refine ⟨⟨hbuilt, hverifies, hcached, hh.nodup, fun j hj hdone => ?_, hh.onward.trans honward,
    hh.unlisted, fun j hj hcreates hlone => ?_⟩, hskip⟩
  · simp only [List.mem_append, List.mem_singleton, not_or] at hdone
    exact hother j hdone.2 (hh.ahead j hj hdone.1)
  · rcases List.mem_append.1 hj with hj | hj
    · have hcreates' := honward.creates hcreates
      exact honward.spares j hcreates (hh.onward.lone j hcreates' hlone)
        (hh.spared j hj hcreates' hlone)
    · obtain rfl := List.mem_singleton.1 hj
      exact hspares hcreates

theorem Tried.spares {is : List InstId} (hg : Tried captured f is is g) (hi : g.Creates i)
    (hlone : f.Lone i) : g.Spares captured i := by
  by_cases hmem : i ∈ is
  · exact hg.spared i hmem hi hlone
  · exact hg.onward.spares i hi hlone (hg.unlisted i (hg.onward.creates hi) hmem)

section Cached

variable (hf : f.Built) (hv : (verify.apply f).1 = .ok ()) (hc : f.dominance.isSome)
include hf hv hc

theorem promoteCell_of_spares (hi : f.Creates i) (hs : f.Spares captured i) :
    ∃ why, (promoteCell captured i).apply f = (.ok (.skipped why), f) := by
  obtain ⟨outcome, g, hrun, hbuilt, -, hcached, -, -, -, hskip⟩ :=
    promoteCell_onward hf hv captured hi
  obtain ⟨hsame, why, rfl⟩ := hskip hs
  obtain rfl := hsame.eq_of_cached hf.sound.coherent hbuilt.sound.coherent hc hcached
  exact ⟨why, hrun⟩

theorem promoteAll_of_settled (hs : f.Settled captured) :
    ∃ stats, (promoteAll captured).apply f = (.ok stats, f) ∧
      stats = { skipped := stats.skipped } := by
  have hensures : (promoteAll captured).Ensures f fun stats g =>
      ∃ is, Tried captured f is is g ∧ f.SameButCache g ∧ stats = { skipped := stats.skipped } := by
    refine promoteAll_ensures (I := fun is done stats h => Tried captured f is done h ∧
      f.SameButCache h ∧ stats = { skipped := stats.skipped }) ?_ ?_
    · exact (Tried.start hf hv).imp fun is g hg => ⟨hg.1, hg.2, rfl⟩
    · rintro is done i rest hsplit stats h ⟨hh, hsame, hstats⟩
      have hi : f.Creates i := hh.onward.creates
        (hh.ahead i (by simp [hsplit]) (notMem_done hh.nodup hsplit))
      refine (hh.step hsplit).imp ?_
      rintro outcome g ⟨hg, hskip⟩ removed
      obtain ⟨hsame', why, rfl⟩ := hskip
        ((hs i hi).sameButCache hf.sound.coherent hh.built.sound.coherent hsame)
      refine ⟨hg, hsame.trans hsame', ?_⟩
      rw [hstats]
      rfl
  obtain ⟨stats, g, hrun, is, hg, hsame, hstats⟩ := hensures
  obtain rfl := hsame.eq_of_cached hf.sound.coherent hg.built.sound.coherent hc hg.cached
  exact ⟨stats, hrun, hstats⟩

end Cached

/-- A run over all cells is complete up to cells that were stored in others: it leaves a creation to
a second try only if its cell was put into cells before the run and is in none after it. Without such
a cell, a second run promotes nothing and changes nothing. -/
theorem promoteAll_complete (f : Func) (hf : f.Built) (hv : (verify.apply f).1 = .ok ())
    (captured : Bool) :
    ∃ stats g, (promoteAll captured).apply f = (.ok stats, g) ∧
      (∀ i inst a, g.insts.get? i = some inst → inst.opcode = .newRef → inst.result = some a →
        (f.Deposited a → g.Deposited a) →
          ∃ why, (promoteCell captured i).apply g = (.ok (.skipped why), g)) ∧
      ((∀ i inst a, g.insts.get? i = some inst → inst.opcode = .newRef → inst.result = some a →
        f.Deposited a → g.Deposited a) →
          ∃ again, (promoteAll captured).apply g = (.ok again, g) ∧
            again = { skipped := again.skipped }) := by
  have hensures : (promoteAll captured).Ensures f fun _ g => ∃ is, Tried captured f is is g :=
    promoteAll_ensures (I := fun is done _ h => Tried captured f is done h)
      ((Tried.start hf hv).imp fun _ _ hg => hg.1)
      fun is done i rest hsplit stats h hh => (hh.step hsplit).imp fun _ _ hg _ => hg.1
  obtain ⟨stats, g, hrun, is, hg⟩ := hensures
  have hspares : ∀ i inst a, g.insts.get? i = some inst → inst.opcode = .newRef →
      inst.result = some a → (f.Deposited a → g.Deposited a) → g.Spares captured i := by
    intro i inst a hi hop hres hdeposited
    -- A cell that is in another one is not promotable; a lone one was settled by its own try.
    by_cases hlone : f.Deposited a
    · exact hg.built.spares_of_deposited hg.verifies hi hres (hdeposited hlone)
    · refine hg.spares ⟨inst, hi, hop⟩ fun old b hold hres' => ?_
      obtain ⟨old', hold', hshape⟩ := hg.onward.inst i inst hi
      obtain rfl := Option.some.inj (hold.symm.trans hold')
      obtain ⟨-, -, hresult, -⟩ := Inst.mk.inj hshape
      rwa [← Option.some.inj (hres.symm.trans (hresult.trans hres'))]
  refine ⟨stats, g, hrun, fun i inst a hi hop hres hdeposited => ?_, fun hall => ?_⟩
  · exact promoteCell_of_spares hg.built hg.verifies hg.cached ⟨inst, hi, hop⟩
      (hspares i inst a hi hop hres hdeposited)
  · refine promoteAll_of_settled hg.built hg.verifies hg.cached ?_
    rintro i ⟨inst, hi, hop⟩
    obtain ⟨-, a, hres⟩ := hg.built.formed.creation hi hop
    exact hspares i inst a hi hop hres (hall i inst a hi hop hres)

/-- A cell in two cells, of which one is read and the other is returned. -/
def sharedCell : List Call :=
  [.addArgument, .appendValue ⟨0⟩ .newRef [⟨0⟩], .appendValue ⟨0⟩ .newRef [⟨1⟩],
    .appendValue ⟨0⟩ .newRef [⟨1⟩], .appendValue ⟨0⟩ .getRef [⟨2⟩], .append ⟨0⟩ .ret [⟨3⟩, ⟨4⟩]]

/-- The cell that is read is promoted. The shared one is still in the other, so that is all. -/
theorem sharedCell_complete :
    ∃ f g : Func, f = sharedCell.foldl (fun f c => c.run f) (Func.new "f") ∧
      (promoteAll true).apply f = (.ok { promoted := 1, skipped := 2, removed := 2 }, g) ∧
      (∃ why, (promoteCell true ⟨0⟩).apply g = (.ok (.skipped why), g)) ∧
      (promoteAll true).apply g = (.ok { skipped := 2 }, g) := by
  obtain ⟨f, hf⟩ : ∃ f : Func, f = sharedCell.foldl (fun f c => c.run f) (Func.new "f") :=
    ⟨_, rfl⟩
  have hv : (verify.apply f).1 = .ok () := by
    rw [hf]
    decide +kernel
  obtain ⟨stats, g, hrun, hspares, hagain⟩ :=
    promoteAll_complete f ⟨"f", sharedCell, hf⟩ hv true
  have hg : g = ((promoteAll true).apply f).2 := by rw [hrun]
  have hstats : ((promoteAll true).apply f).1 =
      .ok { promoted := 1, skipped := 2, removed := 2 } := by
    rw [hf]
    decide +kernel
  have hstill : ∀ i inst a, g.insts.get? i = some inst → inst.opcode = .newRef →
      inst.result = some a → f.Deposited a → g.Deposited a := by
    have hcheck : ∀ i ∈ g.insts.live, ((g.insts.get? i).bind Inst.result).all
        fun a => decide (f.Deposited a → g.Deposited a) := by
      rw [hg, hf]
      decide +kernel
    intro i inst a hi _ hres
    have hdeposited := hcheck i (Arena.mem_live.2 (Option.isSome_iff_exists.2 ⟨inst, hi⟩))
    rw [hi, Option.bind_some, hres] at hdeposited
    exact of_decide_eq_true hdeposited
  have hshared : g.insts.get? ⟨0⟩ = some ⟨.newRef, [⟨0⟩], some ⟨1⟩, ⟨0⟩⟩ := by
    rw [hg, hf]
    decide +kernel
  obtain ⟨again, hrun', -⟩ := hagain hstill
  have hskipped : ((promoteAll true).apply g).1 = .ok { skipped := 2 } := by
    rw [hg, hf]
    decide +kernel
  rw [hrun] at hstats
  rw [hrun'] at hskipped
  obtain rfl := Except.ok.inj hstats
  obtain rfl := Except.ok.inj hskipped
  exact ⟨f, g, hf, hrun, hspares ⟨0⟩ _ ⟨1⟩ hshared rfl rfl (hstill ⟨0⟩ _ ⟨1⟩ hshared rfl rfl),
    hrun'⟩

/-- A cell that is the first content of another, which is read. -/
def nestedCell : List Call :=
  [.addArgument, .appendValue ⟨0⟩ .newRef [⟨0⟩], .appendValue ⟨0⟩ .newRef [⟨1⟩],
    .appendValue ⟨0⟩ .getRef [⟨1⟩], .append ⟨0⟩ .ret [⟨3⟩]]

/-- The inner cell is tried first and left alone; once the outer one is promoted it could be as well,
and a second run promotes it. -/
theorem nestedCell_promoted_later :
    ∃ f g : Func, f = nestedCell.foldl (fun f c => c.run f) (Func.new "f") ∧
      (verify.apply f).1 = .ok () ∧
      (promoteAll true).apply f = (.ok { promoted := 1, skipped := 1, removed := 1 }, g) ∧
      g.insts.get? ⟨0⟩ = some ⟨.newRef, [⟨0⟩], some ⟨1⟩, ⟨0⟩⟩ ∧
      ((promoteCell true ⟨0⟩).apply g).1 = .ok (.promoted .readOnly) ∧
      ((promoteAll true).apply g).1 = .ok { promoted := 1, removed := 2 } := by
  obtain ⟨f, hf⟩ : ∃ f : Func, f = nestedCell.foldl (fun f c => c.run f) (Func.new "f") :=
    ⟨_, rfl⟩
  obtain ⟨g, hg⟩ : ∃ g : Func, g = ((promoteAll true).apply f).2 := ⟨_, rfl⟩
  have hstats : ((promoteAll true).apply f).1 =
      .ok { promoted := 1, skipped := 1, removed := 1 } := by
    rw [hf]
    decide +kernel
  refine ⟨f, g, hf, ?_, Prod.ext hstats hg.symm, ?_, ?_, ?_⟩
  · rw [hf]
    decide +kernel
  · rw [hg, hf]
    decide +kernel
  · rw [hg, hf]
    decide +kernel
  · rw [hg, hf]
    decide +kernel

end Edit

end Midend
