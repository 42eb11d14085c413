import Midend.Proofs.ControlTree.Loops

namespace Midend

theorem IdomTable.climb_eq_cons {t : IdomTable} {rank : BlockId → Nat}
    (hr : ∀ n d, t.idom n = some d → rank d < rank n) (fuel : Nat) (n : BlockId) :
    ∃ above, t.climb fuel n = n :: above ∧ ∀ a ∈ above, rank a < rank n := by
  cases fuel with
  | zero => exact ⟨[], rfl, nofun⟩
  | succ fuel =>
    unfold climb
    split
    · exact ⟨[], rfl, nofun⟩
    · rename_i d hd
      exact ⟨_, rfl, fun a ha => ((above_of_mem_climb ha).rank_le hr).trans_lt (hr n d hd)⟩

namespace Dominance.IsOf

variable {f : Func} {dom : Dominance} {a b : BlockId}

theorem place_lt (h : dom.IsOf f) (hab : f.StrictlyDominates a b) :
    f.blockGraph.toFlowGraph.place f.entry a < f.blockGraph.toFlowGraph.place f.entry b := by
  rw [← h.entry]
  rcases ((h.above_iff hab.2.reaches).2 hab.2).cases_idom with heq | ⟨d, hd, hda⟩
  · exact absurd heq.symm hab.1
  · exact (hda.rank_le h.tree.place_lt).trans_lt (h.tree.place_lt b d hd)

/-- The dominators of a block behind itself are the strict ones, the nearest first. -/
theorem strictDominators (h : dom.IsOf f) (hb : f.Reachable b) :
    (∀ a, a ∈ (dom.tree.dominatorsOf b).drop 1 ↔ f.StrictlyDominates a b) ∧
      ((dom.tree.dominatorsOf b).drop 1).Pairwise fun a c => f.Dominates c a := by
  have hchain : dom.tree.dominatorsOf b = dom.tree.table.climb dom.tree.table.size b :=
    if_pos (h.isReachable_iff.2 hb)
  have hmem : ∀ a, a ∈ dom.tree.dominatorsOf b ↔ f.Dominates a b := fun a => by
    rw [hchain, ← h.above_iff hb]
    exact h.tree.mem_chain_iff b a (h.entry ▸ hb)
  obtain ⟨above, hcons, hlt⟩ :=
    IdomTable.climb_eq_cons h.tree.place_lt dom.tree.table.size b
  have hpairs := hcons ▸ IdomTable.climb_pairwise dom.tree.table dom.tree.table.size b
  rw [hchain, hcons] at hmem ⊢
  have hstrict : ∀ a, a ∈ above ↔ f.StrictlyDominates a b := by
    refine fun a => ⟨fun ha => ⟨?_, (hmem a).1 (List.mem_cons_of_mem b ha)⟩, fun ha => ?_⟩
    · rintro rfl
      exact absurd (hlt a ha) (Nat.lt_irrefl _)
    · exact (List.mem_cons.1 ((hmem a).2 ha.2)).resolve_left ha.1
  refine ⟨hstrict, (List.pairwise_cons.1 hpairs).2.imp_of_mem fun {a c} ha _ hac => ?_⟩
  exact (h.above_iff ((hstrict a).1 ha).2.reaches_left).1 hac

end Dominance.IsOf

theorem Chain.Owns.dominates {f : Func} {dom : Dominance} {placed : IndexSet} {b x : BlockId}
    {c : Chain} (h : c.Owns f dom placed b) (hd : dom.IsOf f) (hx : c.Adds placed x)
    (hr : f.Reachable x) : f.Dominates b x := by
  by_cases hxb : x = b
  · rw [hxb] at hr ⊢
    exact .refl hr
  · have henter : f.blockGraph.toFlowGraph.EnteredFrom f.entry b
        fun y => c.Adds placed y ∧ y ≠ b := by
      refine ⟨fun hentry => (h.absorbed _ hentry.1 hentry.2).1 rfl, fun y p hy hsucc hp => ?_⟩
      have hpred := hd.mem_livePredecessors.2 ⟨hsucc, hd.isReachable_iff.2 hp⟩
      exact Classical.or_iff_not_imp_left.2 fun hne => ⟨(h.absorbed y hy.1 hy.2).2 p hpred, hne⟩
    exact henter.dominates ⟨hx, hxb⟩ hr

theorem Func.Grouped.first_entry {f : Func} {dom : Dominance} {groups : List (BlockId × Region)}
    (h : Func.Grouped f dom [] [f.entry] groups) : ∃ body, groups[0]? = some (f.entry, body) := by
  obtain ⟨more, hmore⟩ := h.first
  cases groups with
  | nil => cases hmore
  | cons g rest => exact ⟨g.2, by rw [(List.cons.inj hmore).1]; rfl⟩

namespace ControlTree

variable {f : Func} {dom : Dominance} {groups : List (BlockId × Region)} {k : Nat} {b : BlockId}
  {body : Region} {t : ControlTree} {id : GroupId} {g : ControlGroup}

theorem parents_ofGroups (dom : Dominance) (groups : List (BlockId × Region)) :
    (ofGroups dom groups).groups.map (·.parent) = groups.zipIdx.map fun g =>
      if g.2 = 0 then none else parentOf dom (entriesOf groups) g.1.1 := by
  refine List.ext_getElem? fun k => ?_
  simp only [ofGroups, List.getElem?_map, List.getElem?_zipIdx, List.map_map]
  cases hk : groups[k]? with
  | none => simpa using hk
  | some g => simp [hk, List.getElem?_zip_eq_some]

theorem parent_ofGroups (hk : groups[k]? = some (b, body))
    (hg : (ofGroups dom groups).group? ⟨k⟩ = some g) :
    g.parent = if k = 0 then none else parentOf dom (entriesOf groups) b := by
  have h := congrArg (·[k]?) (parents_ofGroups dom groups)
  have hg' : (ofGroups dom groups).groups[k]? = some g := hg
  simp only [List.getElem?_map, List.getElem?_zipIdx, hg', hk, Option.map_some,
    Nat.zero_add] at h
  exact Option.some.inj h

theorem children_ofGroups (hg : (ofGroups dom groups).group? id = some g) :
    g.children = ((ofGroups dom groups).toList.filter fun e => e.2.parent = some id).map (·.1) := by
  have hchildren : g.children = (((ofGroups dom groups).groups.map (·.parent)).zipIdx.filter
      fun p => p.1 = some id).map fun p => ⟨p.2⟩ := by
    rw [parents_ofGroups]
    simp only [group?, ofGroups, List.getElem?_map, List.getElem?_zipIdx, Option.map_map,
      Option.map_eq_some_iff, Nat.zero_add] at hg
    obtain ⟨p, -, rfl⟩ := hg
    rfl
  rw [hchildren, toList, List.zipIdx_map, List.filter_map, List.filter_map, List.map_map,
    List.map_map]
  rfl

/-- Behind the group of the entry, a group has a parent: the group whose entry is the nearest
strict dominator of its own. -/
theorem parentOf_spec (hd : dom.IsOf f) (hg : Func.Grouped f dom [] [f.entry] groups)
    (hk : groups[k]? = some (b, body)) (hb : f.Reachable b) (hpos : k ≠ 0) :
    ∃ p a outer, parentOf dom (entriesOf groups) b = some ⟨p⟩ ∧ groups[p]? = some (a, outer) ∧
      f.StrictlyDominates a b ∧
      ∀ c ∈ groups.map (·.1), f.StrictlyDominates c b → f.Dominates c a := by
  obtain ⟨hmem, hpairs⟩ := hd.strictDominators hb
  have hnodup : (groups.map (·.1)).Nodup := hg.nodup
  have hlisted : ∀ c ∈ groups.map (·.1), ∃ p, (entriesOf groups).get? c = some p := by
    intro c hc
    obtain ⟨⟨c, r⟩, hmem, rfl⟩ := List.mem_map.1 hc
    obtain ⟨p, hp⟩ := List.mem_iff_getElem?.1 hmem
    exact ⟨⟨p⟩, get?_entriesOf hnodup hp⟩
  have hentry : f.StrictlyDominates f.entry b := by
    refine ⟨?_, .root hb⟩
    rintro rfl
    obtain ⟨first, hfirst⟩ := hg.first_entry
    have hsame := (get?_entriesOf hnodup hk).symm.trans (get?_entriesOf hnodup hfirst)
    exact hpos (congrArg Handle.index (Option.some.inj hsame))
  obtain ⟨p, hp⟩ : ∃ p, parentOf dom (entriesOf groups) b = some p := by
    rw [← Option.isSome_iff_exists, parentOf, List.findSome?_isSome_iff]
    refine ⟨f.entry, (hmem _).2 hentry, Option.isSome_iff_exists.2 (hlisted _ ?_)⟩
    exact hg.first.subset (List.mem_singleton_self _)
  obtain ⟨near, a, far, hsplit, ha, hnear⟩ := List.findSome?_eq_some_iff.1 hp
  obtain ⟨outer, houter⟩ := (get?_entriesOf_iff hnodup).1 ha
  rw [hsplit] at hmem hpairs
  refine ⟨p.index, a, outer, hp, houter, (hmem a).1 (by simp), fun c hc hcb => ?_⟩
  -- The search passes by what is not an entry, so other entries come later and dominate this one.
  rcases List.mem_append.1 ((hmem c).2 hcb) with hin | hin
  · obtain ⟨q, hq⟩ := hlisted c hc
    cases (hnear c hin).symm.trans hq
  · rcases List.mem_cons.1 hin with rfl | hfar
    · exact .refl hcb.2.reaches_left
    · exact (List.pairwise_cons.1 (List.pairwise_append.1 hpairs).2.1).1 c hfar

def Link (t : ControlTree) (id outer : GroupId) : Prop :=
  ∃ g, t.group? id = some g ∧ g.parent = some outer

/-- Groups are nested by dominance, and jumps enter them at their entries. -/
structure Nested (t : ControlTree) (f : Func) : Prop where
  target : ∀ j ∈ t.jumps, ∃! id, ∃ g, t.group? id = some g ∧ g.entry = j.target
  dominated : ∀ g ∈ t.groups, ∀ b ∈ g.body.blocks, f.toFlowGraph.Dominates f.entry g.entry b
  root_parent : ∃ g, t.group? root = some g ∧ g.parent = none
  parent : ∀ id g, t.group? id = some g → id ≠ root → ∃ p outer, g.parent = some p ∧
    t.group? p = some outer ∧ f.toFlowGraph.StrictlyDominates f.entry outer.entry g.entry ∧
    ∀ other ∈ t.groups, f.toFlowGraph.StrictlyDominates f.entry other.entry g.entry →
      f.toFlowGraph.Dominates f.entry other.entry outer.entry
  children : ∀ id g, t.group? id = some g →
    g.children = (t.toList.filter fun e => e.2.parent = some id).map (·.1)
  to_root : ∀ id g, t.group? id = some g → Relation.ReflTransGen t.Link id root

section

variable (hf : f.Sound) (hd : dom.IsOf f) (hg : Func.Grouped f dom [] [f.entry] groups)
  (hchain : ∀ g ∈ groups, ∃ fuel placed c, dom.isReachable g.1 = true ∧ ¬ placed.Has g.1 ∧
    f.chain dom fuel placed g.1 = .ok c ∧ g.2 = c.region.close c.exit)

include hg in
theorem target_ofGroups {j : Jump} (hj : j ∈ (ofGroups dom groups).jumps) :
    ∃! id, ∃ g, (ofGroups dom groups).group? id = some g ∧ g.entry = j.target := by
  rw [jumps_ofGroups, List.mem_map] at hj
  obtain ⟨j, hj, rfl⟩ := hj
  obtain ⟨⟨b, body⟩, hmem, hj⟩ := List.mem_flatMap.1 hj
  obtain ⟨⟨target, r⟩, htarget, heq⟩ := List.mem_map.1 (hg.target _ hmem j hj)
  obtain ⟨k, hk⟩ := List.mem_iff_getElem?.1 htarget
  obtain ⟨g, hgroup, hentry, -⟩ := group?_ofGroups dom hk
  refine ⟨⟨k⟩, ⟨g, hgroup, hentry.trans heq⟩, ?_⟩
  rintro id ⟨g', hgroup', hentry'⟩
  obtain ⟨r', hk', -⟩ := exists_of_group?_ofGroups hgroup'
  rw [show g'.entry = target from hentry'.trans heq.symm] at hk'
  have hsame := (get?_entriesOf hg.nodup hk').symm.trans (get?_entriesOf hg.nodup hk)
  exact Option.some.inj hsame

include hf hd hchain in
theorem dominates_ofGroups (hg : g ∈ (ofGroups dom groups).groups) (hb : b ∈ g.body.blocks) :
    f.Dominates g.entry b := by
  obtain ⟨id, hk⟩ := exists_group?_eq hg
  obtain ⟨body, hgroup, hbody⟩ := exists_of_group?_ofGroups hk
  obtain ⟨fuel, placed, c, hreach, hfree, hc, rfl⟩ := hchain _ (List.mem_of_getElem? hgroup)
  rw [hbody, Region.blocks_mapJumps, Region.blocks_close] at hb
  have hlists := Func.chain_lists hf hd hreach hfree hc
  exact (Func.chain_owns hf hd hreach hfree hc).dominates hd ((hlists.mem_iff b).1 hb)
    (hd.isReachable_iff.1 (hlists.reachable b hb))

include hd hg hchain

theorem exists_parent_ofGroups (hgroup : (ofGroups dom groups).group? id = some g)
    (hroot : id ≠ root) :
    ∃ p outer, g.parent = some p ∧ (ofGroups dom groups).group? p = some outer ∧
      f.StrictlyDominates outer.entry g.entry ∧
      ∀ other ∈ (ofGroups dom groups).groups, f.StrictlyDominates other.entry g.entry →
        f.Dominates other.entry outer.entry := by
  obtain ⟨body, hk, -⟩ := exists_of_group?_ofGroups hgroup
  obtain ⟨-, -, -, hreach, -⟩ := hchain _ (List.mem_of_getElem? hk)
  have hpos : id.index ≠ 0 := fun h => hroot (Handle.ext h)
  obtain ⟨p, a, region, hp, houter, hab, hnear⟩ :=
    parentOf_spec hd hg hk (hd.isReachable_iff.1 hreach) hpos
  obtain ⟨outer, hgroup', hentry, -⟩ := group?_ofGroups dom houter
  refine ⟨⟨p⟩, outer, ?_, hgroup', hentry ▸ hab, fun other hother hdom => ?_⟩
  · rw [parent_ofGroups hk hgroup, if_neg hpos, hp]
  · obtain ⟨n, hn⟩ := exists_group?_eq hother
    obtain ⟨r, hn', -⟩ := exists_of_group?_ofGroups hn
    rw [hentry]
    exact hnear _ (List.mem_map_of_mem (List.mem_of_getElem? hn')) hdom

/-- The links lead to the root, as each goes up in preorder. -/
theorem to_root_ofGroups (hgroup : (ofGroups dom groups).group? id = some g) :
    Relation.ReflTransGen (ofGroups dom groups).Link id root := by
  induction hn : f.blockGraph.toFlowGraph.place f.entry g.entry using Nat.strong_induction_on
    generalizing id g with
  | _ n ih =>
    by_cases hroot : id = root
    · rw [hroot]
    · obtain ⟨p, outer, hp, houter, hdom, -⟩ := exists_parent_ofGroups hd hg hchain hgroup hroot
      exact .head ⟨g, hgroup, hp⟩ (ih _ (hn ▸ hd.place_lt hdom) houter rfl)

end

/-- In a control tree the target of each jump is the entry of one group, the entry of a group
dominates its blocks, and groups are nested by the dominance of their entries. -/
theorem nested_by_dominance (f : Func) (hf : f.Built) (t : ControlTree)
    (h : (Edit.controlTree.apply f).1 = .ok t) : t.Nested f := by
  obtain ⟨dom, hdom, hbuild⟩ := Edit.controlTree_eq_ok hf.sound h
  have hd := (Func.computeDominance_isOf hdom).cached
  have hsound := hf.sound.cached hdom
  obtain ⟨groups, hgroups, hbuild⟩ := bind_eq_ok.1 hbuild
  obtain rfl := pure_eq_ok.1 hbuild
  have hg := Func.buildGroups_grouped hsound hd rfl (Func.pending_start hd) hgroups
  have hchain := Func.buildGroups_chain hsound hd (Func.pending_start hd) hgroups
  have hdominates : ∀ a b, f.toFlowGraph.Dominates f.entry a b ↔
      Func.Dominates { f with dominance := some dom } a b := fun _ _ =>
    hf.sound.linked.graph_dominates_iff
  refine ⟨fun j hj => target_ofGroups hg hj, fun g hmem b hb => ?_, ?_, fun id g hgroup hroot => ?_,
    fun id g hgroup => children_ofGroups hgroup,
    fun id g hgroup => to_root_ofGroups hd hg hchain hgroup⟩
  · exact (hdominates _ _).2 (dominates_ofGroups hsound hd hchain hmem hb)
  · obtain ⟨body, hfirst⟩ := hg.first_entry
    obtain ⟨g, hgroup, -⟩ := group?_ofGroups dom hfirst
    exact ⟨g, hgroup, parent_ofGroups hfirst hgroup⟩
  · obtain ⟨p, outer, hp, houter, hab, hnear⟩ := exists_parent_ofGroups hd hg hchain hgroup hroot
    refine ⟨p, outer, hp, houter, ⟨hab.1, (hdominates _ _).2 hab.2⟩, fun other hother hdom => ?_⟩
    exact (hdominates _ _).2 (hnear other hother ⟨hdom.1, (hdominates _ _).1 hdom.2⟩)

/-- A loop in a loop: the inner one has one block. -/
def loopInLoop : List Call :=
  [.addArgument, .addBlock, .addBlock, .addBlock, .addBlock, .addBlock, .append ⟨0⟩ (.branch ⟨1⟩) [],
    .append ⟨1⟩ (.condBranch ⟨2⟩ ⟨5⟩) [⟨0⟩], .append ⟨2⟩ (.branch ⟨3⟩) [],
    .append ⟨3⟩ (.condBranch ⟨3⟩ ⟨4⟩) [⟨0⟩], .append ⟨4⟩ (.branch ⟨1⟩) [], .append ⟨5⟩ .ret []]

/-- The group of the inner loop lies in that of the outer one, which lies in the root. -/
theorem loopInLoop_nested :
    ∃ (f : Func) (t : ControlTree), f.Built ∧ (Edit.controlTree.apply f).1 = .ok t ∧
      t.groups.map (fun g => (g.entry, g.parent, g.children)) =
        [(⟨0⟩, none, [⟨1⟩]), (⟨1⟩, some ⟨0⟩, [⟨2⟩]), (⟨3⟩, some ⟨1⟩, [])] ∧ t.Nested f := by
  let f : Func := loopInLoop.foldl (fun f c => c.run f) (Func.new "f")
  have hf : f.Built := ⟨"f", loopInLoop, rfl⟩
  have hrun : ((Edit.controlTree.apply f).1.toOption.map fun t =>
      t.groups.map fun g => (g.entry, g.parent, g.children)) =
      some [(⟨0⟩, none, [⟨1⟩]), (⟨1⟩, some ⟨0⟩, [⟨2⟩]), (⟨3⟩, some ⟨1⟩, [])] := by decide +kernel
  obtain ⟨t, ht⟩ : ∃ t, (Edit.controlTree.apply f).1 = .ok t := isOk_iff.1 (by decide +kernel)
  rw [ht] at hrun
  exact ⟨f, t, hf, ht, Option.some.inj hrun, nested_by_dominance f hf t ht⟩

end ControlTree

end Midend
