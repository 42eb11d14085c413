import Midend.Proofs.ControlTree.Traces
import Midend.Proofs.Func.Sites

namespace Midend

open Func (Continuation)

namespace Region

variable {r : Region} {j : Jump} {follow : Option BlockId} {edge : Edge} {exit : Exit}

@[simp]
theorem blocks_endWith (j : Jump) (r : Region) : (r.endWith j).blocks = r.blocks := by
  induction r with
  | done => rfl
  | block b rest ih => simp only [Region.endWith, blocks, ih]
  | branch b condition t e rest _ _ ih => simp only [Region.endWith, blocks, ih]
  | jump i rest ih => simp only [Region.endWith, blocks, ih]

@[simp]
theorem blocks_close (r : Region) (exit : Exit) : (r.close exit).blocks = r.blocks := by
  cases exit <;> simp [close]

@[simp]
theorem blocks_mapJumps (u : Jump → Jump) (r : Region) : (r.mapJumps u).blocks = r.blocks := by
  induction r with
  | done => rfl
  | block b rest ih => simp only [Region.mapJumps, blocks, ih]
  | branch b condition t e rest iht ihe ih => simp only [Region.mapJumps, blocks, iht, ihe, ih]
  | jump j rest ih => simp only [Region.mapJumps, blocks, ih]

@[simp]
theorem first?_mapJumps (u : Jump → Jump) (r : Region) : (r.mapJumps u).first? = r.first? := by
  cases r <;> rfl

@[simp]
theorem edgeInto_mapJumps (u : Jump → Jump) (b : BlockId) (r : Region) :
    (r.mapJumps u).edgeInto b follow = r.edgeInto b follow := by
  cases r <;> rfl

theorem edges_mapJumps {u : Jump → Jump} (hu : ∀ j, (u j).source = j.source ∧
    (u j).target = j.target) : (r.mapJumps u).edges follow = r.edges follow := by
  induction r generalizing follow with
  | done => rfl
  | block b rest ih => simp only [Region.mapJumps, edges, edgeInto_mapJumps, ih]
  | branch b condition t e rest iht ihe ih =>
    simp only [Region.mapJumps, edges, edgeInto_mapJumps, first?_mapJumps, iht, ihe, ih]
  | jump j rest ih => simp only [Region.mapJumps, edges, hu, ih]

theorem first?_mem {b : BlockId} (h : r.first? = some b) : b ∈ r.blocks := by
  cases r with
  | block s rest =>
    obtain rfl := Option.some.inj h
    exact List.mem_cons_self
  | _ => cases h

theorem target_of_edgeInto {b : BlockId} (h : edge ∈ r.edgeInto b follow) :
    edge.target ∈ r.blocks ∨ follow = some edge.target := by
  cases r with
  | done =>
    obtain ⟨s, hs, rfl⟩ := Option.map_eq_some_iff.1 (Option.mem_toList.1 h)
    exact .inr hs
  | block s rest =>
    obtain rfl := List.mem_singleton.1 h
    exact .inl List.mem_cons_self
  | branch => cases h
  | jump => cases h

/-- An edge leads to a block of the region, to the target of a jump, or behind its end. -/
def LeavesTo (r : Region) (follow : Option BlockId) (s : BlockId) : Prop :=
  s ∈ r.blocks ∨ (∃ j ∈ r.jumps, j.target = s) ∨ follow = some s

theorem leavesTo_of_edgeInto {b : BlockId} (h : edge ∈ r.edgeInto b follow) :
    r.LeavesTo follow edge.target :=
  (target_of_edgeInto h).imp_right .inr

theorem leavesTo_of_edges (h : edge ∈ r.edges follow) : r.LeavesTo follow edge.target := by
  induction r generalizing follow with
  | done => cases h
  | block b rest ih =>
    have hrest : rest.LeavesTo follow edge.target :=
      (List.mem_append.1 h).elim leavesTo_of_edgeInto ih
    exact hrest.imp_left (List.mem_cons_of_mem b)
  | branch b condition t e rest iht ihe ih =>
    -- What comes behind an arm is the first block of the rest.
    have hjoin : ∀ arm : Region, (arm = t ∨ arm = e) → arm.LeavesTo rest.first? edge.target →
        (branch b condition t e rest).LeavesTo follow edge.target := by
      rintro arm harm (hblock | ⟨j, hj, ht⟩ | hfirst)
      · refine .inl ?_
        rcases harm with rfl | rfl <;> simp [blocks, hblock]
      · refine .inr (.inl ⟨j, ?_, ht⟩)
        rcases harm with rfl | rfl <;> simp [jumps, hj]
      · exact .inl (by simp [blocks, first?_mem hfirst])
    simp only [edges, List.mem_append] at h
    rcases h with (((h | h) | h) | h) | h
    · exact hjoin t (.inl rfl) (leavesTo_of_edgeInto h)
    · exact hjoin e (.inr rfl) (leavesTo_of_edgeInto h)
    · exact hjoin t (.inl rfl) (iht h)
    · exact hjoin e (.inr rfl) (ihe h)
    · rcases ih h with hblock | ⟨j, hj, ht⟩ | hfollow
      · exact .inl (by simp [blocks, hblock])
      · exact .inr (.inl ⟨j, by simp [jumps, hj], ht⟩)
      · exact .inr (.inr hfollow)
  | jump j rest ih =>
    rcases List.mem_cons.1 h with rfl | h
    · exact .inr (.inl ⟨j, List.mem_cons_self, rfl⟩)
    · rcases ih h with hblock | ⟨i, hi, ht⟩ | hfollow
      · exact .inl hblock
      · exact .inr (.inl ⟨i, List.mem_cons_of_mem j hi, ht⟩)
      · exact .inr (.inr hfollow)

/-- The edges of the region are the edges of its blocks. -/
def Draws (f : Func) (r : Region) (follow : Option BlockId) : Prop :=
  ∀ edge, edge ∈ r.edges follow ↔ edge.source ∈ r.blocks ∧ edge.target ∈ f.successors edge.source

def DrawsFrom (f : Func) (b target : BlockId) (r : Region) (follow : Option BlockId) : Prop :=
  ∀ edge, edge ∈ r.edgeInto b follow ∨ edge ∈ r.edges follow ↔
    (edge.source = b ∧ edge.target = target) ∨
      (edge.source ∈ r.blocks ∧ edge.target ∈ f.successors edge.source)

variable {f : Func} {b target : BlockId}

theorem draws_done : done.Draws f none := by
  intro edge
  simp [edges, blocks]

theorem draws_leave (h : f.continuation b = .ok .leave) : (block b done).Draws f none := by
  intro edge
  simp only [edges, edgeInto, blocks, List.mem_singleton]
  have := Func.mem_targets_iff (t := edge.target) h
  simp only [Continuation.targets] at this
  grind

theorem DrawsFrom.draws (hr : r.DrawsFrom f b target follow)
    (h : f.continuation b = .ok (.next target)) : (block b r).Draws f follow := by
  intro edge
  have := hr edge
  have := Func.mem_targets_iff (t := edge.target) h
  simp only [Continuation.targets] at this
  simp only [edges, blocks, List.mem_append, List.mem_cons]
  grind

/-- A block before the branch that it decides: its two edges, and those of the arms and of the
rest. -/
theorem draws_branch {condition : ValueId} {ifTrue ifFalse : BlockId} {t e rest : Region}
    (ht : t.DrawsFrom f b ifTrue rest.first?) (he : e.DrawsFrom f b ifFalse rest.first?)
    (hrest : rest.Draws f follow) (h : f.continuation b = .ok (.choose condition ifTrue ifFalse)) :
    (block b (branch b condition t e rest)).Draws f follow := by
  intro edge
  have := ht edge
  have := he edge
  have := hrest edge
  have := Func.mem_targets_iff (t := edge.target) h
  simp only [Continuation.targets] at this
  have hnone : (branch b condition t e rest).edgeInto b follow = [] := rfl
  simp only [edges, hnone, blocks, List.mem_append, List.mem_cons, List.nil_append]
  grind

end Region

namespace Func

variable {f : Func} {dom : Dominance} {fuel : Nat} {placed : IndexSet} {b target : BlockId}
  {c : Chain}

/-- The edges of a chain are those of its blocks, both with the end of the chain open and with a jump
there. -/
theorem chain_draws (h : f.chain dom fuel placed b = .ok c) :
    c.region.Draws f c.exit.target? ∧ (c.region.close c.exit).Draws f none := by
  have hmk : ∀ {b target : BlockId} (edge : Midend.Edge),
      edge = ⟨b, target⟩ ↔ edge.source = b ∧ edge.target = target := by
    rintro b target ⟨source, t⟩
    exact Edge.mk.injEq _ _ _ _ ▸ Iff.rfl
  refine chain_induction
    (P := fun _ _ c => c.region.Draws f c.exit.target? ∧ (c.region.close c.exit).Draws f none)
    (Q := fun _ b target c => c.region.DrawsFrom f b target c.exit.target? ∧
      (c.region.close c.exit).DrawsFrom f b target none)
    ?inline ?jump ?leave ?next ?join ?branch h
  case inline =>
    rintro _ _ b target c - hc ⟨hopen, hclosed⟩
    obtain ⟨more, hregion⟩ := chain_region hc
    refine ⟨fun edge => or_congr ?_ (hopen edge), fun edge => or_congr ?_ (hclosed edge)⟩
    · rw [hregion]
      simp [Region.edgeInto, hmk]
    · rw [hregion]
      cases c.exit <;> simp [Region.close, Region.endWith, Region.edgeInto, hmk]
  case jump =>
    refine fun _ b target => ⟨fun edge => ?_, fun edge => ?_⟩
    · simp [Region.edgeInto, Region.edges, Region.blocks, Exit.target?, hmk]
    · simp [Region.close, Region.endWith, Region.edgeInto, Region.edges, Region.blocks, hmk]
  case leave => exact fun hcont => ⟨Region.draws_leave hcont, Region.draws_leave hcont⟩
  -- The jump at the end of a closed chain stands at the end of its last part.
  case next =>
    rintro _ b _ rest hcont ⟨hopen, hclosed⟩
    refine ⟨hopen.draws hcont, ?_⟩
    simp only [Region.close_block]
    exact hclosed.draws hcont
  case join =>
    rintro _ _ b _ _ _ t e _ rest hcont ⟨htopen, -⟩ ⟨heopen, -⟩ hjoin hrest ⟨hopen, hclosed⟩
    obtain ⟨x, y, htexit, heexit, -, -⟩ := join?_eq_some hjoin
    obtain ⟨more, hregion⟩ := chain_region hrest
    have hfirst : t.exit.target? = rest.region.first? ∧ e.exit.target? = rest.region.first? := by
      rw [htexit, heexit, hregion]
      exact ⟨rfl, rfl⟩
    have hsame : (rest.region.close rest.exit).first? = rest.region.first? := by
      rw [hregion]
      cases rest.exit <;> rfl
    rw [hfirst.1] at htopen
    rw [hfirst.2] at heopen
    refine ⟨Region.draws_branch htopen heopen hopen hcont, ?_⟩
    rw [← hsame] at htopen heopen
    simp only [Region.close_block, Region.close_branch]
    exact Region.draws_branch htopen heopen hclosed hcont
  case branch =>
    rintro _ b _ _ _ t e hcont ⟨-, htclosed⟩ ⟨-, heclosed⟩
    have hbody := Region.draws_branch htclosed heclosed Region.draws_done hcont
    exact ⟨hbody, hbody⟩

/-- A chain lists the blocks that it adds, each once, and all of them can be reached. -/
structure Lists (dom : Dominance) (placed : IndexSet) (c : Chain) : Prop where
  nodup : c.region.blocks.Nodup
  grows : ∀ x, placed.Has x → c.placed.Has x
  mem_iff : ∀ x, x ∈ c.region.blocks ↔ c.Adds placed x
  reachable : ∀ x ∈ c.region.blocks, dom.isReachable x = true

theorem Lists.single {exit : Exit} (hb : dom.isReachable b = true) (hfree : ¬ placed.Has b) :
    Lists dom placed ⟨.block b .done, exit, placed.insert b.index⟩ := by
  refine ⟨List.nodup_singleton b, fun x hx => IndexSet.has_insert.2 (.inr hx), fun x => ?_,
    fun x hx => ?_⟩
  · simp only [Region.blocks, List.mem_singleton, Chain.Adds, IndexSet.has_insert]
    grind
  · rwa [List.mem_singleton.1 hx]

theorem Lists.append {t e : Chain} (ht : Lists dom placed t) (he : Lists dom t.placed e)
    (hblocks : c.region.blocks = t.region.blocks ++ e.region.blocks)
    (hplaced : c.placed = e.placed) : Lists dom placed c := by
  refine ⟨?_, fun x hx => ?_, fun x => ?_, fun x hx => ?_⟩
  · rw [hblocks]
    refine List.nodup_append.2 ⟨ht.nodup, he.nodup, ?_⟩
    -- The second part adds only what the first one has left free.
    rintro x hxt y hye rfl
    exact ((he.mem_iff x).1 hye).2 ((ht.mem_iff x).1 hxt).1
  · exact hplaced ▸ he.grows x (ht.grows x hx)
  · rw [hblocks, List.mem_append, ht.mem_iff, he.mem_iff]
    simp only [Chain.Adds, hplaced]
    have htx := ht.grows x
    have hex := he.grows x
    grind
  · rw [hblocks, List.mem_append] at hx
    exact hx.elim (ht.reachable x) (he.reachable x)

theorem chain_lists (hf : f.Sound) (hd : dom.IsOf f) (hb : dom.isReachable b = true)
    (hfree : ¬ placed.Has b) (h : f.chain dom fuel placed b = .ok c) : Lists dom placed c := by
  have hself : ∀ {placed : IndexSet} {b : BlockId}, dom.isReachable b = true → ¬ placed.Has b →
      Lists dom placed ⟨.block b .done, .diverge, placed.insert b.index⟩ := .single
  have harms : ∀ {placed : IndexSet} {b : BlockId} {t e : Chain} (condition : ValueId),
      dom.isReachable b = true → ¬ placed.Has b → Lists dom (placed.insert b.index) t →
      Lists dom t.placed e → Lists dom placed
        ⟨.block b (.branch b condition (t.region.close t.exit) (e.region.close e.exit) .done),
          .diverge, e.placed⟩ := by
    intro placed b t e condition hb hfree ht he
    have hbt : Lists dom placed { t with region := .block b t.region } :=
      (hself hb hfree).append ht rfl rfl
    exact hbt.append he (by simp [Region.blocks]) rfl
  refine (chain_induction_of_free (P := fun placed _ c => Lists dom placed c)
    (Q := fun placed _ _ c => Lists dom placed c) hf hd
    ?inline ?jump ?leave ?next ?join ?branch hb hfree h).2
  case inline => exact fun _ _ hc => hc
  case jump =>
    exact fun _ _ _ => ⟨List.nodup_nil, fun x hx => hx, fun x =>
      ⟨nofun, fun hx => absurd hx.1 hx.2⟩, nofun⟩
  case leave => exact hself
  case next => exact fun hb hfree _ hrest => (hself hb hfree).append hrest rfl rfl
  case join =>
    intro _ _ condition _ _ t e _ _ hb hfree _ _ ht he _ _ hrest
    exact (harms condition hb hfree ht he).append hrest (by simp [Region.blocks]) rfl
  case branch => exact fun hb hfree _ _ _ ht he => harms _ hb hfree ht he

theorem buildGroups_blocks (hf : f.Sound) (hd : dom.IsOf f) {past queue : List BlockId}
    {queued : OrderedSet BlockId} {groups : List (BlockId × Region)}
    (hp : Pending f dom past queue queued placed)
    (h : f.buildGroups dom fuel queue queued placed = .ok groups) :
    (groups.flatMap (·.2.blocks)).Nodup ∧
      ∀ x ∈ groups.flatMap (·.2.blocks), ¬ placed.Has x ∧ dom.isReachable x = true := by
  induction fuel generalizing past queue queued placed groups with
  | zero =>
    rcases buildGroups_cases h with ⟨rfl, rfl⟩ | ⟨_, _, _, _, _, ⟨⟩, _⟩
    exact ⟨List.nodup_nil, nofun⟩
  | succ fuel ih =>
    rcases buildGroups_cases h with ⟨rfl, rfl⟩ | ⟨_, b, queue, c, rest, ⟨⟩, rfl, hc, hrest, rfl⟩
    · exact ⟨List.nodup_nil, nofun⟩
    · have hb := hp.reachable b (by simp)
      have hfree := hp.free b (by simp)
      have hl := chain_lists hf hd hb hfree hc
      obtain ⟨hnodup, hlater⟩ := ih (hp.step hd (chain_owns hf hd hb hfree hc)) hrest
      simp only [List.flatMap_cons, Region.blocks_close]
      refine ⟨List.nodup_append.2 ⟨hl.nodup, hnodup, ?_⟩, fun x hx => ?_⟩
      · rintro x hx y hy rfl
        exact (hlater x hy).1 ((hl.mem_iff x).1 hx).1
      · rcases List.mem_append.1 hx with hx | hx
        · exact ⟨((hl.mem_iff x).1 hx).2, hl.reachable x hx⟩
        · obtain ⟨hnew, hr⟩ := hlater x hx
          exact ⟨fun hold => hnew (hl.grows x hold), hr⟩

namespace Grouped

variable {groups : List (BlockId × Region)} {g : BlockId × Region}

theorem draws {past queue : List BlockId} (h : Grouped f dom past queue groups) (hg : g ∈ groups) :
    g.2.Draws f none := by
  obtain ⟨fuel, placed, c, hc, hbody⟩ := h.chain g hg
  rw [hbody]
  exact (chain_draws hc).2

theorem entry_mem {past queue : List BlockId} (h : Grouped f dom past queue groups) (hg : g ∈ groups) :
    g.1 ∈ g.2.blocks := by
  obtain ⟨fuel, placed, c, hc, hbody⟩ := h.chain g hg
  obtain ⟨rest, hregion⟩ := chain_region hc
  rw [hbody, Region.blocks_close, hregion]
  exact List.mem_cons_self

/-- What can be reached is in some group: each edge stays in the group or enters another one. -/
theorem reached (h : Grouped f dom [] [f.entry] groups) {x : BlockId}
    (hx : f.toFlowGraph.Reaches f.entry x) : ∃ g ∈ groups, x ∈ g.2.blocks := by
  have hentry : ∀ y ∈ groups.map (·.1), ∃ g ∈ groups, y ∈ g.2.blocks := by
    intro y hy
    obtain ⟨g, hg, rfl⟩ := List.mem_map.1 hy
    exact ⟨g, hg, h.entry_mem hg⟩
  refine hx.induction_on (motive := fun x => ∃ g ∈ groups, x ∈ g.2.blocks)
    (hentry _ (h.first.subset (List.mem_singleton_self _))) ?_
  rintro b c - ⟨g, hg, hb⟩ hc
  have hedge : (⟨b, c⟩ : Midend.Edge) ∈ g.2.edges none := (h.draws hg _).2 ⟨hb, hc⟩
  rcases Region.leavesTo_of_edges hedge with hblock | ⟨j, hj, rfl⟩ | hnone
  · exact ⟨g, hg, hblock⟩
  · exact hentry _ (h.target g hg j hj)
  · cases hnone

end Grouped

end Func

theorem Func.Sound.cached {f : Func} {dom : Dominance} (h : f.Sound)
    (hd : f.computeDominance f.dominanceLimit = .ok dom) :
    Func.Sound { f with dominance := some dom } := by
  refine h.of_fields rfl rfl rfl rfl rfl rfl fun d hcached => ?_
  cases hcached
  exact hd

namespace ControlTree

variable {f : Func} {dom : Dominance} {groups : List (BlockId × Region)}

theorem map_body_ofGroups (dom : Dominance) (groups : List (BlockId × Region)) :
    (ofGroups dom groups).groups.map (·.body) =
      groups.map fun g => g.2.mapJumps (markLoop dom) := by
  refine List.ext_getElem? fun k => ?_
  rw [List.getElem?_map, List.getElem?_map]
  cases hk : groups[k]? with
  | none =>
    have hlength : (ofGroups dom groups).groups.length = groups.length := by simp [ofGroups]
    have hnone : (ofGroups dom groups).groups[k]? = none := by
      rw [List.getElem?_eq_none_iff, hlength]
      exact List.getElem?_eq_none_iff.1 hk
    rw [hnone]
    rfl
  | some g =>
    obtain ⟨b, body⟩ := g
    obtain ⟨group, hgroup, -, hbody⟩ := group?_ofGroups dom hk
    have hget : (ofGroups dom groups).groups[k]? = some group := hgroup
    rw [hget, Option.map_some, Option.map_some, hbody]

theorem blocks_ofGroups (dom : Dominance) (groups : List (BlockId × Region)) :
    (ofGroups dom groups).blocks = groups.flatMap (·.2.blocks) := by
  rw [blocks, ← List.flatMap_map (fun g : ControlGroup => g.body) Region.blocks, map_body_ofGroups,
    List.flatMap_map]
  simp only [Region.blocks_mapJumps]

theorem mem_edges_ofGroups {edge : Edge} :
    edge ∈ (ofGroups dom groups).edges ↔ ∃ g ∈ groups, edge ∈ g.2.edges none := by
  rw [edges, OrderedSet.mem_ofList,
    ← List.flatMap_map (fun g : ControlGroup => g.body) (Region.edges none), map_body_ofGroups,
    List.flatMap_map, List.mem_flatMap]
  simp only [Region.edges_mapJumps (u := markLoop dom) fun _ => ⟨rfl, rfl⟩]

/-- A control tree holds the reachable blocks, each once, and stands for the edges that leave
them. -/
theorem blocks_nodup_edges_iff (f : Func) (hf : f.Built) (t : ControlTree)
    (h : (Edit.controlTree.apply f).1 = .ok t) :
    t.blocks.Nodup ∧ (∀ b, b ∈ t.blocks ↔ f.toFlowGraph.Reaches f.entry b) ∧
      ∀ edge, edge ∈ t.edges ↔
        f.toFlowGraph.Reaches f.entry edge.source ∧ edge.target ∈ f.successors edge.source := by
  obtain ⟨dom, hdom, hbuild⟩ := Edit.controlTree_eq_ok hf.sound h
  have hd := (Func.computeDominance_isOf hdom).cached
  have hsound := hf.sound.cached hdom
  obtain ⟨groups, hgroups, hbuild⟩ := bind_eq_ok.1 hbuild
  obtain rfl := pure_eq_ok.1 hbuild
  have hg := Func.buildGroups_grouped hsound hd rfl (Func.pending_start hd) hgroups
  obtain ⟨hnodup, hblocks⟩ := Func.buildGroups_blocks hsound hd (Func.pending_start hd) hgroups
  have hmem : ∀ b, (∃ g ∈ groups, b ∈ g.2.blocks) ↔ f.toFlowGraph.Reaches f.entry b := by
    refine fun b => ⟨fun hb => ?_, fun hb => hg.reached hb⟩
    have hreach := (hblocks b (List.mem_flatMap.2 hb)).2
    exact hf.sound.linked.reaches_iff.2 ((Func.computeDominance_isOf hdom).isReachable_iff.1 hreach)
  refine ⟨?_, fun b => ?_, fun edge => ?_⟩
  · rwa [blocks_ofGroups]
  · rw [blocks_ofGroups, List.mem_flatMap]
    exact hmem b
  · rw [mem_edges_ofGroups, ← hmem]
    constructor
    · rintro ⟨g, hmemg, hedge⟩
      obtain ⟨hsource, htarget⟩ := (hg.draws hmemg edge).1 hedge
      exact ⟨⟨g, hmemg, hsource⟩, htarget⟩
    · rintro ⟨⟨g, hmemg, hsource⟩, htarget⟩
      exact ⟨g, hmemg, (hg.draws hmemg edge).2 ⟨hsource, htarget⟩⟩

/-- A branch whose arms meet, then a loop that can be entered at two of its blocks. -/
def twoDoors : List Call :=
  [.addArgument, .addBlock, .addBlock, .addBlock, .addBlock, .addBlock, .addBlock, .addBlock,
    .append ⟨0⟩ (.condBranch ⟨1⟩ ⟨2⟩) [⟨0⟩], .append ⟨1⟩ (.branch ⟨3⟩) [],
    .append ⟨2⟩ (.branch ⟨3⟩) [], .append ⟨3⟩ (.condBranch ⟨4⟩ ⟨5⟩) [⟨0⟩],
    .append ⟨4⟩ (.condBranch ⟨5⟩ ⟨6⟩) [⟨0⟩], .append ⟨5⟩ (.branch ⟨4⟩) [], .append ⟨6⟩ .ret [],
    .append ⟨7⟩ (.branch ⟨4⟩) []]

/-- The join of the two arms is drawn though the tree has no jump to it, and the block that nothing
leads to is left out. -/
theorem twoDoors_blocks_edges :
    ∃ (f : Func) (t : ControlTree), f.Built ∧ (Edit.controlTree.apply f).1 = .ok t ∧
      t.jumps.map (·.target) = [⟨4⟩, ⟨5⟩, ⟨5⟩, ⟨4⟩] ∧ (⟨⟨2⟩, ⟨3⟩⟩ : Edge) ∈ t.edges ∧
      (∀ b, b ∈ t.blocks ↔ f.toFlowGraph.Reaches f.entry b) ∧ ⟨7⟩ ∉ t.blocks ∧
      ¬ f.toFlowGraph.Reaches f.entry ⟨7⟩ := by
  let f : Func := twoDoors.foldl (fun f c => c.run f) (Func.new "f")
  have hf : f.Built := ⟨"f", twoDoors, rfl⟩
  have hrun : ((Edit.controlTree.apply f).1.toOption.map fun t =>
      (t.jumps.map (·.target), t.edges.contains ⟨⟨2⟩, ⟨3⟩⟩, t.blocks.contains ⟨7⟩)) =
      some ([⟨4⟩, ⟨5⟩, ⟨5⟩, ⟨4⟩], true, false) := by decide +kernel
  cases ht : (Edit.controlTree.apply f).1 with
  | error e =>
    rw [ht] at hrun
    cases hrun
  | ok t =>
    rw [ht] at hrun
    obtain ⟨hjumps, hrest⟩ := Prod.mk.inj (Option.some.inj hrun)
    obtain ⟨hedge, hblock⟩ := Prod.mk.inj hrest
    obtain ⟨-, hblocks, -⟩ := blocks_nodup_edges_iff f hf t ht
    have hout : ⟨7⟩ ∉ t.blocks := by simpa using hblock
    exact ⟨f, t, hf, ht, hjumps, OrderedSet.contains_iff_mem.1 hedge, hblocks, hout,
      fun hr => hout ((hblocks ⟨7⟩).2 hr)⟩

end ControlTree

end Midend
