import Midend.Proofs.ControlTree.Chains

namespace Midend

open Func (Continuation)

namespace Chain

def Adds (placed : IndexSet) (c : Chain) (x : BlockId) : Prop := c.placed.Has x ∧ ¬ placed.Has x

/-- What a chain from `b` does with the blocks that it adds. -/
structure Owns (f : Func) (dom : Dominance) (placed : IndexSet) (b : BlockId) (c : Chain) :
    Prop where
  grows : ∀ x, placed.Has x → c.placed.Has x
  self : c.Adds placed b
  absorbed : ∀ x, c.Adds placed x → x ≠ b →
    x ≠ f.entry ∧ ∀ p ∈ dom.livePredecessors x, c.Adds placed p
  jump : ∀ j ∈ c.region.jumps, c.Adds placed j.source ∧
    j.source ∈ dom.livePredecessors j.target ∧ (c.Adds placed j.target → j.target = b)
  exit : ∀ s t, c.exit = .jump s t → c.Adds placed s ∧ s ∈ dom.livePredecessors t ∧
    (c.Adds placed t → t = b) ∧ ∀ j ∈ c.region.jumps, j.source = s → j.target ≠ t

/-- What the part of a chain that goes on from `b` to `target` does with the blocks that it adds:
the edge to `target` is no jump of it. -/
structure Extends (f : Func) (dom : Dominance) (placed : IndexSet) (b target : BlockId)
    (c : Chain) : Prop where
  grows : ∀ x, placed.Has x → c.placed.Has x
  first : c.Adds placed target → target ≠ f.entry ∧ ∀ p ∈ dom.livePredecessors target, p = b
  absorbed : ∀ x, c.Adds placed x → x ≠ target →
    x ≠ f.entry ∧ ∀ p ∈ dom.livePredecessors x, c.Adds placed p
  jump : ∀ j ∈ c.region.jumps, c.Adds placed j.source ∧
    j.source ∈ dom.livePredecessors j.target ∧ ¬ c.Adds placed j.target
  exit : ∀ s t, c.exit = .jump s t → (c.Adds placed s ∨ s = b ∧ t = target) ∧
    s ∈ dom.livePredecessors t ∧ ¬ c.Adds placed t ∧
    ∀ j ∈ c.region.jumps, j.source = s → j.target ≠ t

end Chain

namespace Func

variable {f : Func} {dom : Dominance} {fuel : Nat} {placed : IndexSet} {b s t target : BlockId}
  {c : Chain}

def Continuation.targets : Continuation → List BlockId
  | .next target => [target]
  | .choose _ ifTrue ifFalse => [ifTrue, ifFalse]
  | .leave => []

theorem mem_targets_iff {k : Continuation} (h : f.continuation b = .ok k) :
    t ∈ k.targets ↔ t ∈ f.successors b := by
  obtain ⟨i, inst, -, -, hop, hk⟩ := continuation_eq_ok h
  rw [successors, hop]
  cases hopcode : inst.opcode <;> simp only [hopcode] at hk
  case condBranch x y =>
    split at hk
    · subst hk
      simp_all [Continuation.targets, Opcode.targets]
    · obtain ⟨condition, -, rfl⟩ := hk
      simp [Continuation.targets, Opcode.targets]
  all_goals
    subst hk
    simp [Continuation.targets, Opcode.targets]

theorem choose_ne {condition : ValueId} {ifTrue ifFalse : BlockId}
    (h : f.continuation b = .ok (.choose condition ifTrue ifFalse)) : ifTrue ≠ ifFalse := by
  obtain ⟨i, inst, -, -, -, hk⟩ := continuation_eq_ok h
  cases hopcode : inst.opcode <;> simp only [hopcode] at hk
  case condBranch x y =>
    split at hk
    · cases hk
    · obtain ⟨v, -, heq⟩ := hk
      cases heq
      assumption
  all_goals cases hk

theorem mem_livePredecessors_of_continuation (hf : f.Sound) (hd : dom.IsOf f)
    (hb : dom.isReachable b = true) {k : Continuation} (h : f.continuation b = .ok k)
    (ht : t ∈ k.targets) : b ∈ dom.livePredecessors t := by
  have hs := (mem_targets_iff h).1 ht
  refine hd.mem_livePredecessors.2 ⟨mem_blockGraph_successorsOf.2 ⟨?_, ?_, hs⟩, hb⟩
  · obtain ⟨i, inst, hterm, -⟩ := continuation_eq_ok h
    obtain ⟨data, hdata, -⟩ := bind_eq_ok.1 hterm
    exact hasBlock_iff.2 ⟨data, block_eq_ok.1 hdata⟩
  · obtain ⟨data, hdata⟩ := hf.linked.successor_live hs
    exact hasBlock_iff.2 ⟨data, hdata⟩

theorem inlinable_iff : f.inlinable dom placed b = true ↔
    b ≠ f.entry ∧ ¬ placed.Has b ∧ (dom.livePredecessors b).length = 1 := by
  simp [inlinable, IndexSet.Has, and_assoc]

theorem inlinable_unique (h : f.inlinable dom placed t = true) (hs : s ∈ dom.livePredecessors t)
    {p : BlockId} (hp : p ∈ dom.livePredecessors t) : p = s := by
  obtain ⟨q, hq⟩ := List.length_eq_one_iff.1 (inlinable_iff.1 h).2.2
  rw [hq, List.mem_singleton] at hs hp
  rw [hp, hs]

theorem joinable_spec {x y : BlockId} (hne : x ≠ y)
    (h : f.joinable dom placed b x y = true) :
    b ≠ f.entry ∧ ¬ placed.Has b ∧ ∀ p ∈ dom.livePredecessors b, p = x ∨ p = y := by
  simp only [joinable, Bool.and_eq_true, bne_iff_ne, Bool.not_eq_true', decide_eq_true_eq,
    List.contains_iff_mem] at h
  obtain ⟨⟨⟨⟨hentry, hfree⟩, hlen⟩, hx⟩, hy⟩ := h
  refine ⟨hentry, by simp [IndexSet.Has, hfree], fun p hp => ?_⟩
  obtain ⟨p₁, p₂, hps⟩ := List.length_eq_two.1 hlen
  simp only [hps, List.mem_cons, List.not_mem_nil, or_false] at hx hy hp
  grind

end Func

namespace Chain

variable {f : Func} {dom : Dominance} {placed : IndexSet} {b target x y join : BlockId}
  {c t e : Chain} {region : Region}

theorem Owns.extends (h : c.Owns f dom placed target) (hplaced : placed.Has b)
    (hentry : target ≠ f.entry) (hpred : ∀ p ∈ dom.livePredecessors target, p = b) :
    c.Extends f dom placed b target where
  grows := h.grows
  first _ := ⟨hentry, hpred⟩
  absorbed := h.absorbed
  jump j hj := by
    obtain ⟨hs, hedge, hback⟩ := h.jump j hj
    refine ⟨hs, hedge, fun ht => hs.2 ?_⟩
    have hb : j.source = b := hpred _ (hback ht ▸ hedge)
    rw [hb]
    exact hplaced
  exit s t hexit := by
    obtain ⟨hs, hedge, hback, hother⟩ := h.exit s t hexit
    refine ⟨.inl hs, hedge, fun ht => hs.2 ?_, hother⟩
    have hb : s = b := hpred _ (hback ht ▸ hedge)
    rw [hb]
    exact hplaced

theorem extends_jump (hedge : b ∈ dom.livePredecessors target) :
    Extends f dom placed b target ⟨.done, .jump b target, placed⟩ where
  grows _ h := h
  first h := absurd h.1 h.2
  absorbed _ h := absurd h.1 h.2
  jump _ hj := by cases hj
  exit s t hexit := by
    cases hexit
    exact ⟨.inr ⟨rfl, rfl⟩, hedge, fun h => h.2 h.1, fun j hj => by cases hj⟩

theorem owns_leave (hfree : ¬ placed.Has b) :
    Owns f dom placed b ⟨.block b .done, .diverge, placed.insert b.index⟩ where
  grows x h := IndexSet.has_insert.2 (.inr h)
  self := ⟨IndexSet.has_insert.2 (.inl rfl), hfree⟩
  absorbed x h hne := by
    rcases IndexSet.has_insert.1 h.1 with rfl | hx
    · exact absurd rfl hne
    · exact absurd hx h.2
  jump _ hj := by cases hj
  exit _ _ hexit := by cases hexit

theorem Extends.owns (h : c.Extends f dom (placed.insert b.index) b target)
    (hfree : ¬ placed.Has b) :
    Owns f dom placed b { c with region := .block b c.region } := by
  have hnew : ∀ x, Adds placed { c with region := .block b c.region } x ↔
      x = b ∨ c.Adds (placed.insert b.index) x := by
    intro x
    have := h.grows x
    simp only [Adds, IndexSet.has_insert] at this ⊢
    grind
  constructor
  · exact fun x hx => h.grows x (IndexSet.has_insert.2 (.inr hx))
  · exact (hnew b).2 (.inl rfl)
  · intro x hx hne
    simp only [hnew] at hx ⊢
    replace hx := hx.resolve_left hne
    by_cases htarget : x = target
    · subst htarget
      exact ⟨(h.first hx).1, fun p hp => .inl ((h.first hx).2 p hp)⟩
    · exact ⟨(h.absorbed x hx htarget).1, fun p hp => .inr ((h.absorbed x hx htarget).2 p hp)⟩
  · intro j hj
    have := h.jump j hj
    simp only [hnew]
    grind
  · intro s t hexit
    have := h.exit s t hexit
    simp only [hnew]
    grind [Region.jumps]

theorem Extends.jump_close (h : t.Extends f dom placed b target) {j : Jump}
    (hj : j ∈ (t.region.close t.exit).jumps) :
    (t.Adds placed j.source ∨ j.source = b ∧ j.target = target) ∧
      j.source ∈ dom.livePredecessors j.target ∧ ¬ t.Adds placed j.target := by
  rcases Region.mem_jumps_close.1 hj with hj | ⟨s, u, hexit, rfl⟩
  · obtain ⟨hs, hedge, ht⟩ := h.jump j hj
    exact ⟨.inl hs, hedge, ht⟩
  · obtain ⟨hs, hedge, ht, -⟩ := h.exit s u hexit
    exact ⟨hs, hedge, ht⟩

/-- An edge from outside leads to none of the added blocks but the first, and to that one only from
where the chain goes on. -/
theorem Extends.not_adds (h : t.Extends f dom placed b target) (hedge : x ∈ dom.livePredecessors y)
    (hx : ¬ t.Adds placed x) (hfirst : x = b → y ≠ target) : ¬ t.Adds placed y := by
  intro hy
  by_cases htarget : y = target
  · subst htarget
    exact hfirst ((h.first hy).2 x hedge) rfl
  · exact hx ((h.absorbed y hy htarget).2 x hedge)

theorem Extends.absorbs (h : t.Extends f dom placed b target) (hx : t.Adds placed x) :
    x ≠ f.entry ∧ ∀ p ∈ dom.livePredecessors x, p = b ∨ t.Adds placed p := by
  by_cases htarget : x = target
  · subst htarget
    exact ⟨(h.first hx).1, fun p hp => .inl ((h.first hx).2 p hp)⟩
  · exact ⟨(h.absorbed x hx htarget).1, fun p hp => .inr ((h.absorbed x hx htarget).2 p hp)⟩

section Branch

variable {condition : ValueId} {ifTrue ifFalse : BlockId}

theorem adds_branch (ht : t.Extends f dom (placed.insert b.index) b ifTrue)
    (he : e.Extends f dom t.placed b ifFalse) (hfree : ¬ placed.Has b) (region : Region)
    (exit : Exit) (x : BlockId) :
    (Adds placed ⟨region, exit, e.placed⟩ x ↔
      x = b ∨ t.Adds (placed.insert b.index) x ∨ e.Adds t.placed x) ∧
    (t.Adds (placed.insert b.index) x → x ≠ b ∧ ¬ e.Adds t.placed x) ∧
    (e.Adds t.placed x → x ≠ b) := by
  have := ht.grows x
  have := he.grows x
  simp only [Adds, IndexSet.has_insert] at *
  grind

theorem owns_branch (hne : ifTrue ≠ ifFalse) (hfree : ¬ placed.Has b)
    (ht : t.Extends f dom (placed.insert b.index) b ifTrue)
    (he : e.Extends f dom t.placed b ifFalse) :
    Owns f dom placed b ⟨.block b (.branch b condition (t.region.close t.exit)
      (e.region.close e.exit) .done), .diverge, e.placed⟩ := by
  have hadds := adds_branch ht he hfree
  constructor
  · exact fun x hx => he.grows x (ht.grows x (IndexSet.has_insert.2 (.inr hx)))
  · exact (hadds _ _ b).1.2 (.inl rfl)
  · intro x hx hxb
    simp only [(hadds _ _ _).1] at hx ⊢
    rcases hx with rfl | hx | hx
    · exact absurd rfl hxb
    · exact ⟨(ht.absorbs hx).1, fun p hp => ((ht.absorbs hx).2 p hp).imp_right .inl⟩
    · exact ⟨(he.absorbs hx).1, fun p hp => ((he.absorbs hx).2 p hp).imp_right .inr⟩
  · intro j hj
    simp only [Region.jumps, List.mem_append, List.append_nil] at hj
    simp only [(hadds _ _ _).1]
    have hsource := (hadds .done .diverge j.source).2
    rcases hj with hj | hj
    · obtain ⟨hs, hedge, htgt⟩ := ht.jump_close hj
      have := he.not_adds hedge
      grind
    · obtain ⟨hs, hedge, htgt⟩ := he.jump_close hj
      have := ht.not_adds hedge
      grind
  · intro s t hexit
    cases hexit

/-- A branch whose arms meet at a block where the chain goes on. -/
theorem owns_join (hfree : ¬ placed.Has b)
    (ht : t.Extends f dom (placed.insert b.index) b ifTrue)
    (he : e.Extends f dom t.placed b ifFalse) (htexit : t.exit = .jump x join)
    (heexit : e.exit = .jump y join) (hentry : join ≠ f.entry)
    (hpred : ∀ p ∈ dom.livePredecessors join, p = x ∨ p = y) (hc : c.Owns f dom e.placed join) :
    Owns f dom placed b
      { c with region := .block b (.branch b condition t.region e.region c.region) } := by
  have hadds : ∀ region exit z, (Adds placed ⟨region, exit, c.placed⟩ z ↔
      z = b ∨ t.Adds (placed.insert b.index) z ∨ e.Adds t.placed z ∨ c.Adds e.placed z) ∧
      (c.Adds e.placed z → z ≠ b ∧ ¬ t.Adds (placed.insert b.index) z ∧ ¬ e.Adds t.placed z) := by
    intro _ _ z
    have := ht.grows z
    have := he.grows z
    have := hc.grows z
    simp only [Adds, IndexSet.has_insert] at *
    grind
  have harms := fun z => (adds_branch ht he hfree .done .diverge z).2
  obtain ⟨hx, hxedge, hxjoin, hxother⟩ := ht.exit x join htexit
  obtain ⟨hy, hyedge, hyjoin, hyother⟩ := he.exit y join heexit
  -- The two ends are in different arms, and neither has a jump to the join.
  have htjoin : ∀ j ∈ t.region.jumps, j.target ≠ join := by
    intro j hj hjoin
    obtain ⟨hs, hedge, -⟩ := ht.jump j hj
    have := harms j.source
    have := hpred j.source (hjoin ▸ hedge)
    have := hxother j hj
    grind
  have hejoin : ∀ j ∈ e.region.jumps, j.target ≠ join := by
    intro j hj hjoin
    obtain ⟨hs, hedge, -⟩ := he.jump j hj
    have := harms j.source
    have := hpred j.source (hjoin ▸ hedge)
    have := hyother j hj
    grind
  -- No edge from an arm leads into the rest of the chain but to the join, and none leads back.
  have hinto : ∀ s u, s ∈ dom.livePredecessors u → ¬ c.Adds e.placed s → u ≠ join →
      ¬ c.Adds e.placed u := fun s u hedge hs hu h => hs ((hc.absorbed u h hu).2 s hedge)
  have hback : ∀ s u, s ∈ dom.livePredecessors u → c.Adds e.placed s →
      (c.Adds e.placed u → u = join) →
      ¬ t.Adds (placed.insert b.index) u ∧ ¬ e.Adds t.placed u ∧ ¬ c.Adds e.placed u := by
    intro s u hedge hs hu
    obtain ⟨hsb, hst, hse⟩ := (hadds .done .diverge s).2 hs
    refine ⟨ht.not_adds hedge hst fun h => absurd h hsb,
      he.not_adds hedge hse fun h => absurd h hsb, fun h => ?_⟩
    have := hpred s (hu h ▸ hedge)
    have := (hadds .done .diverge s).2 hs
    grind
  constructor
  · exact fun z hz =>
      hc.grows z (he.grows z (ht.grows z (IndexSet.has_insert.2 (.inr hz))))
  · exact (hadds _ _ b).1.2 (.inl rfl)
  · intro z hz hzb
    simp only [(hadds _ _ _).1] at hz ⊢
    rcases hz with rfl | hz | hz | hz
    · exact absurd rfl hzb
    · exact ⟨(ht.absorbs hz).1, fun p hp => ((ht.absorbs hz).2 p hp).imp_right .inl⟩
    · exact ⟨(he.absorbs hz).1, fun p hp => ((he.absorbs hz).2 p hp).imp_right (.inr ∘ .inl)⟩
    · by_cases hzjoin : z = join
      · subst hzjoin
        refine ⟨hentry, fun p hp => ?_⟩
        have := hpred p hp
        grind
      · obtain ⟨hze, hzp⟩ := hc.absorbed z hz hzjoin
        exact ⟨hze, fun p hp => .inr (.inr (.inr (hzp p hp)))⟩
  · intro j hj
    simp only [Region.jumps, List.mem_append] at hj
    simp only [(hadds _ _ _).1]
    have hsource := (hadds .done .diverge j.source).2
    have harm := harms j.source
    rcases hj with (hj | hj) | hj
    · obtain ⟨hs, hedge, htgt⟩ := ht.jump j hj
      have := he.not_adds hedge
      have := hinto _ _ hedge
      have := htjoin j hj
      grind
    · obtain ⟨hs, hedge, htgt⟩ := he.jump j hj
      have := ht.not_adds hedge
      have := hinto _ _ hedge
      have := hejoin j hj
      grind
    · obtain ⟨hs, hedge, htgt⟩ := hc.jump j hj
      have := hback _ _ hedge hs htgt
      grind
  · intro s u hexit
    obtain ⟨hs, hedge, hu, hother⟩ := hc.exit s u hexit
    have hsource := (hadds .done .diverge s).2 hs
    have := hback _ _ hedge hs hu
    simp only [(hadds _ _ _).1, Region.jumps, List.mem_append]
    refine ⟨by grind, hedge, by grind, ?_⟩
    rintro j ((hj | hj) | hj) rfl
    · exact absurd (ht.jump j hj).1 hsource.2.1
    · exact absurd (he.jump j hj).1 hsource.2.2
    · exact hother j hj rfl

end Branch

end Chain

namespace Func

variable {f : Func} {dom : Dominance} {fuel : Nat} {placed : IndexSet} {b target : BlockId}
  {c rest : Chain} {k : Continuation}

/-- Induction over the parts of a chain from a free block that can be reached. The chain owns the
blocks that it adds, and each part that goes on from a block extends it. -/
theorem chain_induction_of_free (hf : f.Sound) (hd : dom.IsOf f)
    {P : IndexSet → BlockId → Chain → Prop} {Q : IndexSet → BlockId → BlockId → Chain → Prop}
    (inline : ∀ {placed : IndexSet} {b target : BlockId} {c : Chain},
      b ∈ dom.livePredecessors target → f.inlinable dom placed target = true →
      P placed target c → Q placed b target c)
    (jump : ∀ (placed : IndexSet) (b target : BlockId),
      Q placed b target ⟨.done, .jump b target, placed⟩)
    (leave : ∀ {placed : IndexSet} {b : BlockId}, dom.isReachable b = true → ¬ placed.Has b →
      P placed b ⟨.block b .done, .diverge, placed.insert b.index⟩)
    (next : ∀ {placed : IndexSet} {b target : BlockId} {rest : Chain}, dom.isReachable b = true →
      ¬ placed.Has b → rest.Extends f dom (placed.insert b.index) b target →
      Q (placed.insert b.index) b target rest →
      P placed b { rest with region := .block b rest.region })
    (join : ∀ {placed : IndexSet} {b : BlockId} {condition : ValueId} {ifTrue ifFalse : BlockId}
      {t e : Chain} {join : BlockId} {rest : Chain}, dom.isReachable b = true → ¬ placed.Has b →
      t.Extends f dom (placed.insert b.index) b ifTrue → e.Extends f dom t.placed b ifFalse →
      Q (placed.insert b.index) b ifTrue t → Q t.placed b ifFalse e →
      f.join? dom e.placed t.exit e.exit = some join → rest.Owns f dom e.placed join →
      P e.placed join rest → P placed b { rest with
        region := .block b (.branch b condition t.region e.region rest.region) })
    (branch : ∀ {placed : IndexSet} {b : BlockId} {condition : ValueId} {ifTrue ifFalse : BlockId}
      {t e : Chain}, dom.isReachable b = true → ¬ placed.Has b → ifTrue ≠ ifFalse →
      t.Extends f dom (placed.insert b.index) b ifTrue → e.Extends f dom t.placed b ifFalse →
      Q (placed.insert b.index) b ifTrue t → Q t.placed b ifFalse e →
      P placed b ⟨.block b (.branch b condition (t.region.close t.exit) (e.region.close e.exit)
        .done), .diverge, e.placed⟩)
    (hb : dom.isReachable b = true) (hfree : ¬ placed.Has b)
    (h : f.chain dom fuel placed b = .ok c) : c.Owns f dom placed b ∧ P placed b c := by
  have hself : ∀ (placed : IndexSet) (b : BlockId), (placed.insert b.index).Has b := fun _ _ =>
    IndexSet.has_insert.2 (.inl rfl)
  have hedge : ∀ {b target : BlockId} {k : Continuation}, dom.isReachable b = true →
      f.continuation b = .ok k → target ∈ k.targets → b ∈ dom.livePredecessors target :=
    fun hb => mem_livePredecessors_of_continuation hf hd hb
  -- That a part starts at a free block that can be reached follows from what the parts before it
  -- own.
  refine chain_induction
    (P := fun placed b c => dom.isReachable b = true → ¬ placed.Has b →
      c.Owns f dom placed b ∧ P placed b c)
    (Q := fun placed b target c => b ∈ dom.livePredecessors target → placed.Has b →
      c.Extends f dom placed b target ∧ Q placed b target c)
    ?_ ?_ ?_ ?_ ?_ ?_ h hb hfree
  · intro _ _ _ _ _ hin _ hchain hedge hplaced
    obtain ⟨hentry, hfree, -⟩ := inlinable_iff.1 hin
    obtain ⟨howns, hP⟩ := hchain (hd.isReachable_of_mem hedge) hfree
    exact ⟨howns.extends hplaced hentry fun p => inlinable_unique hin hedge, inline hedge hin hP⟩
  · exact fun placed b target hedge _ => ⟨Chain.extends_jump hedge, jump placed b target⟩
  · exact fun _ hb hfree => ⟨Chain.owns_leave hfree, leave hb hfree⟩
  · intro placed b _ _ hcont hrest hb hfree
    obtain ⟨hext, hQ⟩ := hrest (hedge hb hcont (by simp [Continuation.targets])) (hself placed b)
    exact ⟨hext.owns hfree, next hb hfree hext hQ⟩
  · intro _ placed b _ _ _ _ _ _ _ hcont ht he hjoin _ hrest hb hfree
    obtain ⟨ht, htQ⟩ := ht (hedge hb hcont (by simp [Continuation.targets])) (hself placed b)
    obtain ⟨he, heQ⟩ := he (hedge hb hcont (by simp [Continuation.targets]))
      (ht.grows b (hself placed b))
    obtain ⟨x, y, htexit, heexit, hxy, hjoinable⟩ := join?_eq_some hjoin
    obtain ⟨hentry, hjfree, hpred⟩ := joinable_spec hxy hjoinable
    obtain ⟨howns, hP⟩ := hrest (hd.isReachable_of_mem (ht.exit x _ htexit).2.1) hjfree
    exact ⟨Chain.owns_join hfree ht he htexit heexit hentry hpred howns,
      join hb hfree ht he htQ heQ hjoin howns hP⟩
  · intro placed b _ _ _ _ _ hcont ht he hb hfree
    obtain ⟨ht, htQ⟩ := ht (hedge hb hcont (by simp [Continuation.targets])) (hself placed b)
    obtain ⟨he, heQ⟩ := he (hedge hb hcont (by simp [Continuation.targets]))
      (ht.grows b (hself placed b))
    have hne := choose_ne hcont
    exact ⟨Chain.owns_branch hne hfree ht he, branch hb hfree hne ht he htQ heQ⟩

theorem chain_owns (hf : f.Sound) (hd : dom.IsOf f) (hb : dom.isReachable b = true)
    (hfree : ¬ placed.Has b) (h : f.chain dom fuel placed b = .ok c) : c.Owns f dom placed b :=
  (chain_induction_of_free (P := fun _ _ _ => True) (Q := fun _ _ _ _ => True) hf hd
    (fun _ _ _ => trivial) (fun _ _ _ => trivial) (fun _ _ => trivial) (fun _ _ _ _ => trivial)
    (fun _ _ _ _ _ _ _ _ _ => trivial) (fun _ _ _ _ _ _ _ => trivial) hb hfree h).1

theorem FollowedBy.extends (hf : f.Sound) (hd : dom.IsOf f) (hb : dom.isReachable b = true)
    (hk : f.continuation b = .ok k) (htarget : target ∈ k.targets) (hplaced : placed.Has b)
    (h : f.FollowedBy dom fuel placed b target rest) : rest.Extends f dom placed b target := by
  have hedge := mem_livePredecessors_of_continuation hf hd hb hk htarget
  rcases h with ⟨hin, hc⟩ | rfl
  · obtain ⟨hentry, hfree, -⟩ := inlinable_iff.1 hin
    exact (chain_owns hf hd (hd.isReachable_of_mem hedge) hfree hc).extends hplaced hentry
      fun p => inlinable_unique hin hedge
  · exact Chain.extends_jump hedge

end Func

end Midend
