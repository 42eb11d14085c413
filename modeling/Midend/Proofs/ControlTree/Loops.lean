import Midend.Proofs.ControlTree.Coverage

/-!
Loops of a control tree. A chain absorbs a block behind its only predecessor, or behind a branch
whose arms are its only predecessors. Such a block dominates none of these predecessors, for it
would have to dominate them all, and is entered from somewhere. So every edge that goes back to a
dominator is drawn as a jump, and the jumps that are marked are these edges.
-/

namespace Midend

open Func (Continuation)

namespace FlowGraph

variable {g : FlowGraph} {r b v w x p : BlockId} {inside : BlockId → Prop}

/-- A node other than the root is entered from one that it does not dominate. -/
theorem Reaches.exists_not_dominated (h : g.Reaches r v) (hne : v ≠ r) :
    ∃ p, v ∈ g.successors p ∧ g.Reaches r p ∧ ¬ g.Dominates r v p := by
  by_contra hno
  have avoid : ∀ x p, g.Path r x p → v ∉ p := by
    intro x p hp
    induction hp with
    | start => simpa using hne
    | @step x y p hp hy ih =>
      rw [List.mem_append, List.mem_singleton, not_or]
      refine ⟨ih, ?_⟩
      rintro rfl
      exact hno ⟨x, hy, ⟨p, hp⟩, fun hd => ih (hd.onPath p hp)⟩
  obtain ⟨p, hp⟩ := h
  exact avoid v p hp hp.end_mem

structure EnteredFrom (g : FlowGraph) (r b : BlockId) (inside : BlockId → Prop) : Prop where
  root : ¬ inside r
  enter : ∀ x p, inside x → x ∈ g.successors p → g.Reaches r p → p = b ∨ inside p

namespace EnteredFrom

variable (h : g.EnteredFrom r b inside)
include h

theorem dominates (hx : inside x) (hr : g.Reaches r x) : g.Dominates r b x := by
  refine ⟨hr, fun p hp => ?_⟩
  induction hp with
  | start => exact absurd hx h.root
  | @step x y p hp hy ih =>
    rcases h.enter y x hx hy ⟨p, hp⟩ with rfl | hin
    · exact List.mem_append_left _ hp.end_mem
    · exact List.mem_append_left _ (ih hin ⟨p, hp⟩)

theorem exists_path (hx : inside x) (hr : g.Reaches r x) :
    ∃ q, g.Path b x q ∧ ∀ z ∈ q, z = b ∨ inside z := by
  revert hx
  refine hr.induction_on
    (motive := fun x => inside x → ∃ q, g.Path b x q ∧ ∀ z ∈ q, z = b ∨ inside z)
    (fun hx => absurd hx h.root) ?_
  intro y z hy ih hz hin
  rcases h.enter z y hin hz hy with rfl | hyin
  · refine ⟨_, .step .start hz, fun u hu => ?_⟩
    rcases List.mem_append.1 hu with hu | hu
    · exact .inl (List.mem_singleton.1 hu)
    · exact .inr (List.mem_singleton.1 hu ▸ hin)
  · obtain ⟨q, hq, hqin⟩ := ih hyin
    refine ⟨_, hq.step hz, fun u hu => ?_⟩
    rcases List.mem_append.1 hu with hu | hu
    · exact hqin u hu
    · exact .inr (List.mem_singleton.1 hu ▸ hin)

theorem dominates_of_outside (hb : g.Reaches r b) (hw : ¬ inside w) (hx : inside x)
    (hwx : g.Dominates r w x) : g.Dominates r w b := by
  by_contra hno
  have hne : b ≠ w := by
    rintro rfl
    exact hno (.refl hb)
  obtain ⟨p, hp, hwp⟩ := Dominates.exists_avoiding hb hno
  obtain ⟨q, hq, hqin⟩ := h.exists_path hx hwx.reaches
  refine Path.notMem_append_tail hwp (fun hwq => ?_) (hwx.onPath _ (hp.append hq))
  exact (hqin w hwq).elim (fun heq => hne heq.symm) hw

/-- A further node that is entered only from `b` and these nodes dominates none of them: it is
entered from somewhere, and would dominate that place by way of `b`. -/
theorem not_dominates (hb : g.Reaches r b) (hv : g.Reaches r v) (hne : v ≠ r) (hout : ¬ inside v)
    (hpred : ∀ p, v ∈ g.successors p → g.Reaches r p → p = b ∨ inside p)
    (hp : v ∈ g.successors p) : ¬ g.Dominates r v p := by
  intro hvp
  have hvb : g.Dominates r v b := by
    rcases hpred p hp hvp.reaches with rfl | hin
    · exact hvp
    · exact h.dominates_of_outside hb hout hin hvp
  obtain ⟨q, hq, hqr, hvq⟩ := hv.exists_not_dominated hne
  rcases hpred q hq hqr with rfl | hin
  · exact hvq hvb
  · exact hvq (hvb.trans (h.dominates hin hqr))

end EnteredFrom

end FlowGraph

namespace Func

variable {f : Func} {dom : Dominance} {fuel : Nat} {placed : IndexSet} {b target x : BlockId}
  {c rest : Chain} {k : Continuation}

/-- No edge goes back to the block from where it dominates. -/
def EnteredForward (f : Func) (x : BlockId) : Prop :=
  ∀ p, x ∈ f.blockGraph.successorsOf p → ¬ f.Dominates x p

theorem enteredForward_of (hd : dom.IsOf f) (inside : BlockId → Prop)
    (hb : dom.isReachable b = true) (hx : dom.isReachable x = true) (hentry : x ≠ f.entry)
    (hout : ¬ inside x)
    (henter : ∀ y, inside y → y ≠ f.entry ∧ ∀ p ∈ dom.livePredecessors y, p = b ∨ inside p)
    (hpred : ∀ p ∈ dom.livePredecessors x, p = b ∨ inside p) : f.EnteredForward x := by
  have hlive : ∀ y p, y ∈ f.blockGraph.successorsOf p → f.Reachable p →
      p ∈ dom.livePredecessors y := fun y p hy hp =>
    hd.mem_livePredecessors.2 ⟨hy, hd.isReachable_iff.2 hp⟩
  have henters : f.blockGraph.toFlowGraph.EnteredFrom f.entry b inside :=
    ⟨fun hin => (henter _ hin).1 rfl, fun y p hy hedge hp => (henter y hy).2 p (hlive y p hedge hp)⟩
  intro p hp
  exact henters.not_dominates (hd.isReachable_iff.1 hb) (hd.isReachable_iff.1 hx) hentry hout
    (fun q hq hqr => hpred q (hlive x q hq hqr)) hp

/-- The join of two arms is entered from their ends, which lie in the arms or are `b`. -/
theorem enteredForward_join (hd : dom.IsOf f) {t e : Chain} {join s u ifTrue ifFalse : BlockId}
    (hb : dom.isReachable b = true) (ht : t.Extends f dom placed b ifTrue)
    (he : e.Extends f dom t.placed b ifFalse) (htexit : t.exit = .jump s join)
    (heexit : e.exit = .jump u join) (hne : s ≠ u)
    (hjoin : f.joinable dom e.placed join s u = true) : f.EnteredForward join := by
  obtain ⟨hentry, hfree, hpred⟩ := joinable_spec hne hjoin
  obtain ⟨hs, hedge, -⟩ := ht.exit s join htexit
  obtain ⟨hu, -⟩ := he.exit u join heexit
  refine enteredForward_of hd (fun y => t.Adds placed y ∨ e.Adds t.placed y) hb
    (hd.isReachable_of_mem hedge) hentry (fun hin => hfree ?_) (fun y hy => ?_) fun p hp => ?_
  · exact hin.elim (fun hin => he.grows join hin.1) (·.1)
  · rcases hy with hy | hy
    · exact ⟨(ht.absorbs hy).1, fun p hp => ((ht.absorbs hy).2 p hp).imp_right .inl⟩
    · exact ⟨(he.absorbs hy).1, fun p hp => ((he.absorbs hy).2 p hp).imp_right .inr⟩
  · rcases hpred p hp with rfl | rfl
    · exact hs.symm.imp (·.1) .inl
    · exact hu.symm.imp (·.1) .inr

theorem chain_enteredForward (hf : f.Sound) (hd : dom.IsOf f) (hb : dom.isReachable b = true)
    (hfree : ¬ placed.Has b) (h : f.chain dom fuel placed b = .ok c) :
    ∀ x, c.Adds placed x → x ≠ b → f.EnteredForward x := by
  have harms : ∀ {placed : IndexSet} {b ifTrue ifFalse : BlockId} {t e : Chain},
      ¬ placed.Has b → t.Extends f dom (placed.insert b.index) b ifTrue →
      e.Extends f dom t.placed b ifFalse →
      (∀ x, t.Adds (placed.insert b.index) x → f.EnteredForward x) →
      (∀ x, e.Adds t.placed x → f.EnteredForward x) →
      ∀ x, e.placed.Has x → ¬ placed.Has x → x ≠ b → f.EnteredForward x := by
    intro placed b _ _ t e hfree ht he htin hein x hx hnew hxb
    rcases (Chain.adds_branch ht he hfree .done .diverge x).1.1 ⟨hx, hnew⟩ with rfl | hxt | hxe
    · exact absurd rfl hxb
    · exact htin x hxt
    · exact hein x hxe
  refine (chain_induction_of_free
    (P := fun placed b c => ∀ x, c.Adds placed x → x ≠ b → f.EnteredForward x)
    (Q := fun placed _ _ c => ∀ x, c.Adds placed x → f.EnteredForward x) hf hd
    ?inline ?jump ?leave ?next ?join ?branch hb hfree h).2
  case inline =>
    intro _ b target _ hedge hin hc x hx
    -- The first block of the next part is entered from `b` only, and the others are covered by that
    -- part.
    by_cases hxt : x = target
    · subst hxt
      exact enteredForward_of hd (fun _ => False) (hd.mem_livePredecessors.1 hedge).2
        (hd.isReachable_of_mem hedge) (inlinable_iff.1 hin).1 id (fun y hy => hy.elim)
        fun p hp => .inl (inlinable_unique hin hedge hp)
    · exact hc x hx hxt
  case jump => exact fun _ _ _ x hx => absurd hx.1 hx.2
  case leave =>
    exact fun _ _ x hx hxb => absurd hx.2 (not_not.2 ((IndexSet.has_insert.1 hx.1).resolve_left hxb))
  case next =>
    intro _ b _ _ _ _ _ hrest x hx hxb
    exact hrest x ⟨hx.1, fun hin => (IndexSet.has_insert.1 hin).elim hxb hx.2⟩
  case join =>
    intro _ _ _ _ _ t e join _ hb hfree ht he htin hein hjoin _ hrest x hx hxb
    obtain ⟨s, u, htexit, heexit, hne, hjoinable⟩ := join?_eq_some hjoin
    by_cases hxe : e.placed.Has x
    · exact harms hfree ht he htin hein x hxe hx.2 hxb
    by_cases hxj : x = join
    · rw [hxj]
      exact enteredForward_join hd hb ht he htexit heexit hne hjoinable
    · exact hrest x ⟨hx.1, hxe⟩ hxj
  case branch =>
    exact fun _ hfree _ ht he htin hein x hx => harms hfree ht he htin hein x hx.1 hx.2

end Func

def Jump.edge (j : Jump) : Edge := ⟨j.source, j.target⟩

def Exit.jumps : Exit → List Jump
  | .diverge => []
  | .jump source target => [⟨source, target, false⟩]

namespace Region

variable {r : Region} {follow : Option BlockId} {edge : Edge}

/-- The edges that the region stands for without a jump: control falls through from one block to the
next, into an arm, or behind a branch. -/
def falls (follow : Option BlockId) : Region → List Edge
  | done => []
  | block b rest => rest.edgeInto b follow ++ rest.falls follow
  | branch b _ t e rest =>
    let join := rest.first?
    t.edgeInto b join ++ e.edgeInto b join ++ t.falls join ++ e.falls join ++ rest.falls follow
  | jump _ rest => rest.falls follow

theorem jumps_close (r : Region) (exit : Exit) : (r.close exit).jumps = r.jumps ++ exit.jumps := by
  cases exit <;> simp [close, Exit.jumps]

theorem jumps_mapJumps (u : Jump → Jump) (r : Region) :
    (r.mapJumps u).jumps = r.jumps.map u := by
  induction r with
  | done => rfl
  | block b rest ih => exact ih
  | branch b condition t e rest iht ihe ih =>
    simp only [Region.mapJumps, jumps, iht, ihe, ih, List.map_append]
  | jump j rest ih => simp only [Region.mapJumps, jumps, ih, List.map_cons]

theorem falls_mapJumps (u : Jump → Jump) (r : Region) (follow : Option BlockId) :
    (r.mapJumps u).falls follow = r.falls follow := by
  induction r generalizing follow with
  | done => rfl
  | block b rest ih => simp only [Region.mapJumps, falls, edgeInto_mapJumps, ih]
  | branch b condition t e rest iht ihe ih =>
    simp only [Region.mapJumps, falls, edgeInto_mapJumps, first?_mapJumps, iht, ihe, ih]
  | jump j rest ih => exact ih follow

theorem mem_edges_iff :
    edge ∈ r.edges follow ↔ edge ∈ r.jumps.map Jump.edge ∨ edge ∈ r.falls follow := by
  induction r generalizing follow with
  | done => simp [edges, jumps, falls]
  | block b rest ih =>
    simp only [edges, jumps, falls, List.mem_append, ih]
    exact or_left_comm
  | branch b condition t e rest iht ihe ih =>
    simp only [edges, jumps, falls, List.map_append, List.mem_append, iht, ihe, ih]
    grind
  | jump j rest ih =>
    simp only [edges, jumps, falls, List.map_cons, List.mem_cons, ih, Jump.edge]
    exact or_assoc.symm

theorem target_of_falls (h : edge ∈ r.falls follow) :
    edge.target ∈ r.blocks ∨ follow = some edge.target := by
  induction r generalizing follow with
  | done => cases h
  | block b rest ih =>
    have hrest := (List.mem_append.1 h).elim target_of_edgeInto ih
    exact hrest.imp_left (List.mem_cons_of_mem b)
  | branch b condition t e rest iht ihe ih =>
    simp only [falls, List.mem_append] at h
    simp only [blocks, List.mem_append]
    -- Behind an arm comes the first block of the rest.
    have hjoin : rest.first? = some edge.target → edge.target ∈ rest.blocks := first?_mem
    rcases h with (((h | h) | h) | h) | h
    · have := target_of_edgeInto h
      grind
    · have := target_of_edgeInto h
      grind
    · have := iht h
      grind
    · have := ihe h
      grind
    · have := ih h
      grind
  | jump j rest ih => exact ih h

end Region

namespace Func

variable {f : Func} {dom : Dominance} {fuel : Nat} {placed : IndexSet} {b target : BlockId}
  {c rest : Chain} {k : Continuation}

theorem nodup_edges_append {is js : List Jump} (hi : (is.map Jump.edge).Nodup)
    (hj : (js.map Jump.edge).Nodup)
    (hne : ∀ i ∈ is, ∀ j ∈ js, i.source = j.source → i.target ≠ j.target) :
    ((is ++ js).map Jump.edge).Nodup := by
  rw [List.map_append, List.nodup_append]
  refine ⟨hi, hj, ?_⟩
  simp only [List.mem_map]
  rintro _ ⟨i, hi, rfl⟩ _ ⟨j, hj, rfl⟩ heq
  exact hne i hi j hj (congrArg Edge.source heq) (congrArg Edge.target heq)

/-- No two jumps of a chain stand for one edge: those of its parts start at different blocks, or at
`b` for different targets. -/
theorem chain_jumps_nodup (hf : f.Sound) (hd : dom.IsOf f) (hb : dom.isReachable b = true)
    (hfree : ¬ placed.Has b) (h : f.chain dom fuel placed b = .ok c) :
    ((c.region.close c.exit).jumps.map Jump.edge).Nodup := by
  refine (chain_induction_of_free
    (P := fun _ _ c => ((c.region.close c.exit).jumps.map Jump.edge).Nodup)
    (Q := fun _ _ _ c => ((c.region.close c.exit).jumps.map Jump.edge).Nodup) hf hd
    ?inline ?jump ?leave ?next ?join ?branch hb hfree h).2
  case inline => exact fun _ _ hc => hc
  case jump => exact fun _ _ _ => List.nodup_singleton _
  case leave => exact fun _ _ => List.nodup_nil
  case next =>
    intro _ _ _ _ _ _ _ hrest
    simpa only [Region.close_block, Region.jumps] using hrest
  case join =>
    intro _ _ _ _ _ t e _ rest _ hfree ht he htnodup henodup _ howns hrest
    have hadds := fun x => (Chain.adds_branch ht he hfree .done .diverge x).2
    have hopen : ∀ {r : Region} {exit : Exit}, ((r.close exit).jumps.map Jump.edge).Nodup →
        (r.jumps.map Jump.edge).Nodup := by
      intro r exit hr
      rw [Region.jumps_close, List.map_append] at hr
      exact hr.of_append_left
    simp only [Region.close_block, Region.close_branch]
    -- The arms and the rest add different blocks, and jumps start at what their part adds, or at
    -- `b`.
    refine nodup_edges_append (nodup_edges_append (hopen htnodup) (hopen henodup) ?_) hrest ?_
    · intro i hi j hj hsource
      have := (ht.jump i hi).1
      have := (he.jump j hj).1
      have := hadds i.source
      grind
    · intro i hi j hj hsource
      have hj := (howns.jump_close hj).1
      rcases List.mem_append.1 hi with hi | hi
      · exact absurd (he.grows _ (ht.jump i hi).1.1) (hsource ▸ hj.2)
      · exact absurd (he.jump i hi).1.1 (hsource ▸ hj.2)
  case branch =>
    intro _ _ _ _ _ t e _ hfree hne ht he htnodup henodup
    have hadds := fun x => (Chain.adds_branch ht he hfree .done .diverge x).2
    simp only [Region.close, Region.jumps, List.append_nil]
    refine nodup_edges_append htnodup henodup fun i hi j hj hsource => ?_
    have := ht.jump_close hi
    have := he.jump_close hj
    have := hadds i.source
    grind

theorem buildGroups_chain (hf : f.Sound) (hd : dom.IsOf f) {past queue : List BlockId}
    {queued : OrderedSet BlockId} {groups : List (BlockId × Region)}
    (hp : Pending f dom past queue queued placed)
    (h : f.buildGroups dom fuel queue queued placed = .ok groups) :
    ∀ g ∈ groups, ∃ fuel placed c, dom.isReachable g.1 = true ∧ ¬ placed.Has g.1 ∧
      f.chain dom fuel placed g.1 = .ok c ∧ g.2 = c.region.close c.exit := by
  induction fuel generalizing past queue queued placed groups with
  | zero =>
    rcases buildGroups_cases h with ⟨rfl, rfl⟩ | ⟨_, _, _, _, _, ⟨⟩, _⟩
    exact nofun
  | succ fuel ih =>
    rcases buildGroups_cases h with ⟨rfl, rfl⟩ | ⟨_, b, queue, c, rest, ⟨⟩, rfl, hc, hrest, rfl⟩
    · exact nofun
    · have hb := hp.reachable b (by simp)
      have hfree := hp.free b (by simp)
      rw [List.forall_mem_cons]
      exact ⟨⟨_, placed, c, hb, hfree, hc, rfl⟩,
        ih (hp.step hd (chain_owns hf hd hb hfree hc)) hrest⟩

/-- In a group control falls through only to blocks that no edge goes back to. -/
theorem chain_falls (hf : f.Sound) (hd : dom.IsOf f) (hb : dom.isReachable b = true)
    (hfree : ¬ placed.Has b) (h : f.chain dom fuel placed b = .ok c) :
    ∀ edge ∈ (c.region.close c.exit).falls none, f.EnteredForward edge.target := by
  intro edge hedge
  have hlists := chain_lists hf hd hb hfree h
  obtain ⟨body, hbody⟩ : ∃ body, c.region.close c.exit = .block b body := by
    obtain ⟨rest, hrest⟩ := chain_region h
    rw [hrest]
    cases c.exit <;> exact ⟨_, rfl⟩
  have hblocks : c.region.blocks = b :: body.blocks := by
    rw [← Region.blocks_close c.region c.exit, hbody, Region.blocks]
  have htarget : edge.target ∈ body.blocks := by
    rw [hbody] at hedge
    have hfall : edge.target ∈ body.blocks ∨ none = some edge.target :=
      (List.mem_append.1 hedge).elim Region.target_of_edgeInto Region.target_of_falls
    exact hfall.resolve_right (by simp)
  refine chain_enteredForward hf hd hb hfree h _ ((hlists.mem_iff _).1 ?_) ?_
  · rw [hblocks]
    exact List.mem_cons_of_mem b htarget
  · rintro rfl
    have hnodup := hlists.nodup
    rw [hblocks] at hnodup
    exact (List.nodup_cons.1 hnodup).1 htarget

/-- An edge from a block that can be reached only by way of its target. -/
def BackEdge (f : Func) (edge : Midend.Edge) : Prop :=
  edge.target ∈ f.successors edge.source ∧
    f.toFlowGraph.Dominates f.entry edge.target edge.source

theorem Linked.backEdge_iff (h : f.Linked fun _ => False) {edge : Midend.Edge} :
    f.BackEdge edge ↔
      edge.target ∈ f.successors edge.source ∧ f.Dominates edge.target edge.source :=
  and_congr_right fun _ => h.graph_dominates_iff

namespace Grouped

variable {groups : List (BlockId × Region)} {g : BlockId × Region}
  {past queue : List BlockId} {edge : Midend.Edge}

theorem jump_edge (h : Grouped f dom past queue groups) (hg : g ∈ groups) {j : Jump}
    (hj : j ∈ g.2.jumps) : j.source ∈ g.2.blocks ∧ j.target ∈ f.successors j.source :=
  (h.draws hg j.edge).1 (Region.mem_edges_iff.2 (.inl (List.mem_map_of_mem hj)))

theorem jumps_nodup (h : Grouped f dom past queue groups)
    (hblocks : (groups.flatMap (·.2.blocks)).Nodup)
    (hjumps : ∀ g ∈ groups, (g.2.jumps.map Jump.edge).Nodup) :
    ((groups.flatMap (·.2.jumps)).map Jump.edge).Nodup := by
  rw [List.map_flatMap, List.nodup_flatMap]
  refine ⟨hjumps, (List.nodup_flatMap.1 hblocks).2.imp_of_mem ?_⟩
  rintro x y hx hy hdisjoint _ hex hey
  obtain ⟨i, hi, rfl⟩ := List.mem_map.1 hex
  obtain ⟨j, hj, hij⟩ := List.mem_map.1 hey
  have hsource : j.source = i.source := congrArg Edge.source hij
  exact hdisjoint (h.jump_edge hx hi).1 (hsource ▸ (h.jump_edge hy hj).1)

/-- The edges back to a dominator are those of the jumps to a dominator. -/
theorem backEdge_iff (h : Grouped f dom [] [f.entry] groups) (hf : f.Sound) (hd : dom.IsOf f)
    (hfalls : ∀ g ∈ groups, ∀ edge ∈ g.2.falls none, f.EnteredForward edge.target) :
    f.BackEdge edge ↔
      ∃ j ∈ groups.flatMap (·.2.jumps), dom.dominates j.target j.source = true ∧ j.edge = edge := by
  rw [hf.linked.backEdge_iff]
  constructor
  · rintro ⟨hsucc, hdom⟩
    obtain ⟨g, hg, hsource⟩ := h.reached (hf.linked.reaches_iff.2 hdom.reaches)
    rcases Region.mem_edges_iff.1 ((h.draws hg edge).2 ⟨hsource, hsucc⟩) with hjump | hfall
    · obtain ⟨j, hj, rfl⟩ := List.mem_map.1 hjump
      exact ⟨j, List.mem_flatMap.2 ⟨g, hg, hj⟩, hd.dominates_iff.2 hdom, rfl⟩
    · exact absurd hdom
        (hfalls g hg edge hfall _ (hf.linked.edge_of_successor hd hdom.reaches hsucc))
  · rintro ⟨j, hj, hdom, rfl⟩
    obtain ⟨g, hg, hj⟩ := List.mem_flatMap.1 hj
    exact ⟨(h.jump_edge hg hj).2, hd.dominates_iff.1 hdom⟩

end Grouped

end Func

namespace ControlTree

variable {f : Func} {dom : Dominance} {groups : List (BlockId × Region)}

/-- The jumps that go back to a dominator. -/
def loopTails (t : ControlTree) : List Jump := t.jumps.filter (·.loopTail)

/-- The edges that the tree stands for without a jump. -/
def fallThroughs (t : ControlTree) : List Edge := t.groups.flatMap (·.body.falls none)

theorem jumps_ofGroups (dom : Dominance) (groups : List (BlockId × Region)) :
    (ofGroups dom groups).jumps = (groups.flatMap (·.2.jumps)).map (markLoop dom) := by
  rw [jumps, ← List.flatMap_map (fun g : ControlGroup => g.body) Region.jumps, map_body_ofGroups,
    List.flatMap_map, List.map_flatMap]
  simp only [Region.jumps_mapJumps]

theorem fallThroughs_ofGroups (dom : Dominance) (groups : List (BlockId × Region)) :
    (ofGroups dom groups).fallThroughs = groups.flatMap (·.2.falls none) := by
  rw [fallThroughs, ← List.flatMap_map (fun g : ControlGroup => g.body) (Region.falls none),
    map_body_ofGroups, List.flatMap_map]
  simp only [Region.falls_mapJumps]

theorem mem_loopTails_ofGroups {edge : Edge} :
    edge ∈ (ofGroups dom groups).loopTails.map Jump.edge ↔
      ∃ j ∈ groups.flatMap (·.2.jumps), dom.dominates j.target j.source = true ∧ j.edge = edge := by
  simp only [loopTails, jumps_ofGroups, List.mem_map, List.mem_filter]
  constructor
  · rintro ⟨_, ⟨⟨j, hj, rfl⟩, htail⟩, rfl⟩
    exact ⟨j, hj, htail, rfl⟩
  · rintro ⟨j, hj, htail, rfl⟩
    exact ⟨_, ⟨⟨j, hj, rfl⟩, htail⟩, rfl⟩

theorem loopTails_nodup (h : ((groups.flatMap (·.2.jumps)).map Jump.edge).Nodup) :
    ((ofGroups dom groups).loopTails.map Jump.edge).Nodup := by
  have hmark : (ofGroups dom groups).jumps.map Jump.edge =
      (groups.flatMap (·.2.jumps)).map Jump.edge := by
    rw [jumps_ofGroups, List.map_map]
    rfl
  rw [← hmark] at h
  exact h.sublist (List.filter_sublist.map _)

theorem loopHead_ofGroups {g : ControlGroup} (hg : g ∈ (ofGroups dom groups).groups) :
    g.loopHead = true ↔
      ∃ edge ∈ (ofGroups dom groups).loopTails.map Jump.edge, edge.target = g.entry := by
  have hhead : g.loopHead = ((ofGroups dom groups).jumps.filterMap fun j =>
      if j.loopTail then some j.target else none).contains g.entry := by
    obtain ⟨⟨⟨_, body⟩, k⟩, -, rfl⟩ := List.mem_map.1 hg
    rw [jumps_ofGroups, List.map_flatMap]
    simp only [List.flatMap_map, Region.jumps_mapJumps]
  rw [hhead, List.contains_iff_mem, List.mem_filterMap]
  simp only [loopTails, List.mem_map, List.mem_filter]
  constructor
  · rintro ⟨j, hj, hsome⟩
    split at hsome
    · exact ⟨_, ⟨j, ⟨hj, ‹_›⟩, rfl⟩, Option.some.inj hsome⟩
    · cases hsome
  · rintro ⟨_, ⟨j, ⟨hj, htail⟩, rfl⟩, htarget⟩
    exact ⟨j, hj, by rw [if_pos htail, ← htarget]; rfl⟩

/-- The loop tails of a control tree stand for the edges that go back to a dominator, one for each.
No such edge is drawn by falling through, and the groups that they go to are the loop heads. -/
theorem loopTails_iff_backEdge (f : Func) (hf : f.Built) (t : ControlTree)
    (h : (Edit.controlTree.apply f).1 = .ok t) :
    (t.loopTails.map Jump.edge).Nodup ∧
    (∀ edge, edge ∈ t.loopTails.map Jump.edge ↔ f.BackEdge edge) ∧
    (∀ edge, f.BackEdge edge → edge ∉ t.fallThroughs) ∧
    ∀ g ∈ t.groups, g.loopHead = true ↔ ∃ edge, f.BackEdge edge ∧ edge.target = g.entry := by
  obtain ⟨dom, hdom, hbuild⟩ := Edit.controlTree_eq_ok hf.sound h
  have hd := (Func.computeDominance_isOf hdom).cached
  have hsound := hf.sound.cached hdom
  obtain ⟨groups, hgroups, hbuild⟩ := bind_eq_ok.1 hbuild
  obtain rfl := pure_eq_ok.1 hbuild
  have hstart := Func.pending_start hd
  have hg := Func.buildGroups_grouped hsound hd rfl hstart hgroups
  have hblocks := (Func.buildGroups_blocks hsound hd hstart hgroups).1
  have hchain := Func.buildGroups_chain hsound hd hstart hgroups
  have hjumps : ∀ g ∈ groups, (g.2.jumps.map Jump.edge).Nodup := by
    intro g hmem
    obtain ⟨fuel, placed, c, hreach, hfree, hc, hbody⟩ := hchain g hmem
    rw [hbody]
    exact Func.chain_jumps_nodup hsound hd hreach hfree hc
  have hfalls : ∀ g ∈ groups, ∀ edge ∈ g.2.falls none,
      Func.EnteredForward { f with dominance := some dom } edge.target := by
    intro g hmem
    obtain ⟨fuel, placed, c, hreach, hfree, hc, hbody⟩ := hchain g hmem
    rw [hbody]
    exact Func.chain_falls hsound hd hreach hfree hc
  have hback : ∀ edge, edge ∈ (ofGroups dom groups).loopTails.map Jump.edge ↔ f.BackEdge edge :=
    fun edge => mem_loopTails_ofGroups.trans (hg.backEdge_iff hsound hd hfalls).symm
  refine ⟨loopTails_nodup (hg.jumps_nodup hblocks hjumps), hback, fun edge hedge hfall => ?_,
    fun g hmem => ?_⟩
  · rw [fallThroughs_ofGroups] at hfall
    obtain ⟨g, hmem, hfall⟩ := List.mem_flatMap.1 hfall
    obtain ⟨hsucc, hdominates⟩ := hsound.linked.backEdge_iff.1 hedge
    exact hfalls g hmem edge hfall _
      (hsound.linked.edge_of_successor hd hdominates.reaches hsucc) hdominates
  · simp only [← hback]
    exact loopHead_ofGroups hmem

/-- A loop through the entry, and behind it a block that goes back to itself. -/
def entryLoop : List Call :=
  [.addArgument, .addBlock, .addBlock, .addBlock, .append ⟨0⟩ (.condBranch ⟨1⟩ ⟨2⟩) [⟨0⟩],
    .append ⟨1⟩ (.branch ⟨0⟩) [], .append ⟨2⟩ (.condBranch ⟨2⟩ ⟨3⟩) [⟨0⟩], .append ⟨3⟩ .ret []]

/-- Both loops have their tail, though one of them is a jump of the root group to itself, and the
arm of the branch that leads there is drawn by falling through. -/
theorem entryLoop_backEdges :
    ∃ (f : Func) (t : ControlTree), f.Built ∧ (Edit.controlTree.apply f).1 = .ok t ∧
      t.loopTails.map Jump.edge = [⟨⟨1⟩, ⟨0⟩⟩, ⟨⟨2⟩, ⟨2⟩⟩] ∧
      (∀ edge, f.BackEdge edge ↔ edge = ⟨⟨1⟩, ⟨0⟩⟩ ∨ edge = ⟨⟨2⟩, ⟨2⟩⟩) ∧
      t.fallThroughs = [⟨⟨0⟩, ⟨1⟩⟩, ⟨⟨2⟩, ⟨3⟩⟩] := by
  let f : Func := entryLoop.foldl (fun f c => c.run f) (Func.new "f")
  have hf : f.Built := ⟨"f", entryLoop, rfl⟩
  have hrun : ((Edit.controlTree.apply f).1.toOption.map fun t =>
      (t.loopTails.map Jump.edge, t.fallThroughs)) =
      some ([⟨⟨1⟩, ⟨0⟩⟩, ⟨⟨2⟩, ⟨2⟩⟩], [⟨⟨0⟩, ⟨1⟩⟩, ⟨⟨2⟩, ⟨3⟩⟩]) := by decide +kernel
  cases ht : (Edit.controlTree.apply f).1 with
  | error e =>
    rw [ht] at hrun
    cases hrun
  | ok t =>
    rw [ht] at hrun
    obtain ⟨htails, hfalls⟩ := Prod.mk.inj (Option.some.inj hrun)
    obtain ⟨-, hback, -⟩ := loopTails_iff_backEdge f hf t ht
    refine ⟨f, t, hf, ht, htails, fun edge => ?_, hfalls⟩
    rw [← hback, htails, List.mem_cons, List.mem_singleton]

end ControlTree

end Midend
