import Midend.Proofs.ControlTree.Frames
import Midend.Proofs.OrderedMap

namespace Midend

namespace Func

variable {f : Func} {dom : Dominance} {fuel : Nat} {past queue : List BlockId}
  {queued : OrderedSet BlockId} {placed : IndexSet} {b : BlockId} {c : Chain}
  {groups : List (BlockId × Region)}

/-- Between two rounds: `past` are the entries of the groups made so far. A queued block is still
free, and no chain can absorb it, since it is the entry or has a predecessor that is placed. -/
structure Pending (f : Func) (dom : Dominance) (past queue : List BlockId)
    (queued : OrderedSet BlockId) (placed : IndexSet) : Prop where
  mem_queued : ∀ b, b ∈ queued ↔ b ∈ past ++ queue
  nodup : (past ++ queue).Nodup
  reachable : ∀ b ∈ past ++ queue, dom.isReachable b = true
  free : ∀ b ∈ queue, ¬ placed.Has b
  met : ∀ b ∈ queue, b = f.entry ∨ ∃ s ∈ dom.livePredecessors b, placed.Has s
  closed : ∀ x, placed.Has x → x ∉ past → ∀ p ∈ dom.livePredecessors x, placed.Has p

def newTargets (c : Chain) (queued : OrderedSet BlockId) : List BlockId :=
  ((c.region.close c.exit).jumps.map (·.target)).eraseDups.filter fun t =>
    !c.placed.contains t.index && !queued.contains t

theorem mem_newTargets {t : BlockId} : t ∈ newTargets c queued ↔
    (∃ j ∈ (c.region.close c.exit).jumps, j.target = t) ∧ ¬ c.placed.Has t ∧ t ∉ queued := by
  rw [newTargets, List.mem_filter, List.mem_eraseDups, List.mem_map, Bool.and_eq_true,
    Bool.not_eq_true', Bool.not_eq_true', ← Bool.not_eq_true, ← Bool.not_eq_true,
    OrderedSet.contains_iff_mem]
  rfl

theorem buildGroups_cons : f.buildGroups dom (fuel + 1) (b :: queue) queued placed = do
    let c ← f.chain dom (f.blocks.size + 1) placed b
    let rest ← f.buildGroups dom fuel (queue ++ newTargets c queued)
      ((newTargets c queued).foldl OrderedSet.insert queued) c.placed
    return (b, c.region.close c.exit) :: rest := by
  rw [buildGroups, buildGroup_eq, bind_assoc]
  rfl

theorem buildGroups_cases (h : f.buildGroups dom fuel queue queued placed = .ok groups) :
    (queue = [] ∧ groups = []) ∨ ∃ n b more c rest, fuel = n + 1 ∧ queue = b :: more ∧
      f.chain dom (f.blocks.size + 1) placed b = .ok c ∧
      f.buildGroups dom n (more ++ newTargets c queued)
        ((newTargets c queued).foldl OrderedSet.insert queued) c.placed = .ok rest ∧
      groups = (b, c.region.close c.exit) :: rest := by
  cases queue with
  | nil =>
    rw [buildGroups] at h
    exact .inl ⟨rfl, (pure_eq_ok.1 h).symm⟩
  | cons b more =>
    cases fuel with
    | zero => cases h
    | succ n =>
      rw [buildGroups_cons] at h
      obtain ⟨c, hc, h⟩ := bind_eq_ok.1 h
      obtain ⟨rest, hrest, h⟩ := bind_eq_ok.1 h
      exact .inr ⟨n, b, more, c, rest, rfl, rfl, hc, hrest, (pure_eq_ok.1 h).symm⟩

end Func

theorem Chain.Owns.jump_close {f : Func} {dom : Dominance} {placed : IndexSet} {b : BlockId}
    {c : Chain} (h : c.Owns f dom placed b) {j : Jump} (hj : j ∈ (c.region.close c.exit).jumps) :
    c.Adds placed j.source ∧ j.source ∈ dom.livePredecessors j.target ∧
      (c.Adds placed j.target → j.target = b) := by
  rcases Region.mem_jumps_close.1 hj with hj | ⟨s, t, hexit, rfl⟩
  · exact h.jump j hj
  · obtain ⟨hs, hedge, hback, -⟩ := h.exit s t hexit
    exact ⟨hs, hedge, hback⟩

namespace Func

variable {f : Func} {dom : Dominance} {fuel : Nat} {past queue : List BlockId}
  {queued : OrderedSet BlockId} {placed : IndexSet} {b : BlockId} {c : Chain}
  {groups : List (BlockId × Region)}

/-- A jump of the next group goes to a block that was queued before, or is queued then. -/
theorem Pending.target_queued (h : Pending f dom past (b :: queue) queued placed)
    (hc : c.Owns f dom placed b) {j : Jump} (hj : j ∈ (c.region.close c.exit).jumps) :
    j.target ∈ past ++ b :: queue ∨ j.target ∈ newTargets c queued := by
  obtain ⟨hs, hedge, hback⟩ := hc.jump_close hj
  by_cases hq : j.target ∈ queued
  · exact .inl ((h.mem_queued _).1 hq)
  by_cases hp : c.placed.Has j.target
  · left
    by_cases hold : placed.Has j.target
    · -- A block absorbed before has no predecessor that is placed only now.
      refine Classical.byContradiction fun hnot => hs.2 (h.closed _ hold ?_ _ hedge)
      exact fun hpast => hnot (List.mem_append_left _ hpast)
    · rw [hback ⟨hp, hold⟩]
      simp
  · exact .inr (mem_newTargets.2 ⟨⟨j, hj, rfl⟩, hp, hq⟩)

theorem Pending.step (hd : dom.IsOf f) (h : Pending f dom past (b :: queue) queued placed)
    (hc : c.Owns f dom placed b) :
    Pending f dom (past ++ [b]) (queue ++ newTargets c queued)
      ((newTargets c queued).foldl OrderedSet.insert queued) c.placed := by
  have hassoc : past ++ [b] ++ (queue ++ newTargets c queued) =
      past ++ b :: queue ++ newTargets c queued := by simp
  have hedges : ∀ t ∈ newTargets c queued, ∃ s ∈ dom.livePredecessors t, c.placed.Has s := by
    intro t ht
    obtain ⟨⟨j, hj, rfl⟩, -⟩ := mem_newTargets.1 ht
    obtain ⟨hs, hedge, -⟩ := hc.jump_close hj
    exact ⟨j.source, hedge, hs.1⟩
  refine ⟨fun x => ?_, ?_, fun x hx => ?_, fun x hx => ?_, fun x hx => ?_, fun x hx hpast => ?_⟩
  · rw [OrderedSet.mem_foldl_insert, h.mem_queued, hassoc, List.mem_append (t := newTargets _ _),
      or_comm]
  · rw [hassoc, List.nodup_append]
    refine ⟨h.nodup, (nodup_eraseDups _).filter _, ?_⟩
    rintro x hx y hy rfl
    exact (mem_newTargets.1 hy).2.2 ((h.mem_queued x).2 hx)
  · rw [hassoc] at hx
    rcases List.mem_append.1 hx with hx | hx
    · exact h.reachable x hx
    · obtain ⟨s, hs, -⟩ := hedges x hx
      exact hd.isReachable_of_mem hs
  · rcases List.mem_append.1 hx with hx | hx
    · intro hplaced
      have hne : x ≠ b := by
        rintro rfl
        have := (List.nodup_append.1 h.nodup).2.1
        exact (List.nodup_cons.1 this).1 hx
      have hfree := h.free x (List.mem_cons_of_mem _ hx)
      -- A queued block is not absorbed: it is the entry, or a block placed before leads to it.
      obtain ⟨hentry, hpreds⟩ := hc.absorbed x ⟨hplaced, hfree⟩ hne
      rcases h.met x (List.mem_cons_of_mem _ hx) with rfl | ⟨s, hs, hsp⟩
      · exact hentry rfl
      · exact (hpreds s hs).2 hsp
    · exact (mem_newTargets.1 hx).2.1
  · rcases List.mem_append.1 hx with hx | hx
    · refine (h.met x (List.mem_cons_of_mem _ hx)).imp_right ?_
      exact fun ⟨s, hs, hsp⟩ => ⟨s, hs, hc.grows s hsp⟩
    · exact .inr (hedges x hx)
  · intro p hp
    rw [List.mem_append, List.mem_singleton, not_or] at hpast
    by_cases hold : placed.Has x
    · exact hc.grows p (h.closed x hold hpast.1 p hp)
    · exact ((hc.absorbed x ⟨hx, hold⟩ hpast.2).2 p hp).1

theorem pending_start (hd : dom.IsOf f) :
    Pending f dom [] [f.entry] (.ofList [f.entry]) (.withCapacity f.blocks.size) where
  mem_queued b := by simp
  nodup := by simp
  reachable b hb := by
    obtain rfl := List.mem_singleton.1 hb
    exact hd.entry_isReachable
  free b _ := by simp [IndexSet.Has]
  met b hb := .inl (List.mem_singleton.1 hb)
  closed x hx := by simp [IndexSet.Has] at hx

theorem Pending.length_past_le (hf : f.Sound) (hd : dom.IsOf f)
    (hp : Pending f dom past queue queued placed) : past.length ≤ f.blocks.size :=
  FlowGraph.length_le_of_index_lt (List.nodup_append.1 hp.nodup).1 fun x hx =>
    hf.linked.index_lt hd (hp.reachable x (List.mem_append_left _ hx))

/-- The groups that come out: the queued blocks are entries of the first ones, no entry comes twice,
and the jumps go to entries. -/
structure Grouped (f : Func) (dom : Dominance) (past queue : List BlockId)
    (groups : List (BlockId × Region)) : Prop where
  first : queue <+: groups.map (·.1)
  nodup : (past ++ groups.map (·.1)).Nodup
  chain : ∀ g ∈ groups, ∃ fuel placed c, f.chain dom fuel placed g.1 = .ok c ∧
    g.2 = c.region.close c.exit
  target : ∀ g ∈ groups, ∀ j ∈ g.2.jumps, j.target ∈ past ++ groups.map (·.1)

/-- All rounds. Each round takes an entry that was not there before, so `fuel` is enough as long as
it covers the blocks that are not entries yet. -/
theorem buildGroups_grouped (hf : f.Sound) (hd : dom.IsOf f)
    (hfuel : fuel + past.length = f.blocks.size + 1)
    (hp : Pending f dom past queue queued placed)
    (h : f.buildGroups dom fuel queue queued placed = .ok groups) :
    Grouped f dom past queue groups := by
  induction fuel generalizing past queue queued placed groups with
  | zero =>
    have hle := hp.length_past_le hf hd
    omega
  | succ fuel ih =>
    rcases buildGroups_cases h with ⟨rfl, rfl⟩ | ⟨_, b, queue, c, rest, ⟨⟩, rfl, hc, hrest, rfl⟩
    · exact ⟨List.prefix_rfl, by simpa using hp.nodup, by simp, by simp⟩
    · have howns := chain_owns hf hd (hp.reachable b (by simp)) (hp.free b (by simp)) hc
      have hg := ih (by rw [List.length_append]; simp only [List.length_singleton]; omega)
        (hp.step hd howns) hrest
      have hassoc : past ++ [b] ++ rest.map (·.1) = past ++ b :: rest.map (·.1) := by simp
      refine ⟨?_, ?_, ?_, ?_⟩
      · obtain ⟨more, hmore⟩ := hg.first
        exact ⟨newTargets c queued ++ more, by simp [← hmore]⟩
      · simpa using hg.nodup
      · rw [List.forall_mem_cons]
        exact ⟨⟨_, placed, c, hc, rfl⟩, hg.chain⟩
      · rw [List.forall_mem_cons]
        refine ⟨fun j hj => ?_, fun g hmem j hj => ?_⟩
        · -- The target is an entry already, or stands in the queue, all of which become entries.
          have hqueue : ∀ x ∈ queue ++ newTargets c queued, x ∈ rest.map (·.1) :=
            fun x hx => hg.first.subset hx
          have := hp.target_queued howns hj
          simp only [List.map_cons, List.mem_append, List.mem_cons] at this hqueue ⊢
          grind
        · have := hg.target g hmem j hj
          rw [hassoc] at this
          exact this

end Func

namespace ControlTree

variable {f : Func} {dom : Dominance} {groups : List (BlockId × Region)} {k : Nat} {b : BlockId}
  {body : Region}

theorem get?_entriesOf_iff (hn : (groups.map (·.1)).Nodup) :
    (entriesOf groups).get? b = some ⟨k⟩ ↔ ∃ body, groups[k]? = some (b, body) := by
  have hmem : ∀ b k, (b, (⟨k⟩ : GroupId)) ∈ (groups.zipIdx.map fun e => (e.1.1, (⟨e.2⟩ : GroupId))) ↔
      ∃ body, groups[k]? = some (b, body) := by
    intro b k
    simp [List.mem_zipIdx_iff_getElem?]
  rw [entriesOf, OrderedMap.get?_ofList_iff, hmem]
  rintro b ⟨k⟩ ⟨l⟩ hk hl
  obtain ⟨body, hk⟩ := (hmem b k).1 hk
  obtain ⟨other, hl⟩ := (hmem b l).1 hl
  have hk' : (groups.map (·.1))[k]? = some b := by rw [List.getElem?_map, hk]; rfl
  have hl' : (groups.map (·.1))[l]? = some b := by rw [List.getElem?_map, hl]; rfl
  exact congrArg _ ((List.getElem?_inj (List.getElem?_eq_some_iff.1 hk').1 hn).1 (hk'.trans hl'.symm))

theorem get?_entriesOf (hn : (groups.map (·.1)).Nodup) (hk : groups[k]? = some (b, body)) :
    (entriesOf groups).get? b = some ⟨k⟩ := (get?_entriesOf_iff hn).2 ⟨body, hk⟩

theorem group?_ofGroups (dom : Dominance) (hk : groups[k]? = some (b, body)) :
    ∃ g, (ofGroups dom groups).group? ⟨k⟩ = some g ∧ g.entry = b ∧
      g.body = body.mapJumps (markLoop dom) := by
  have hzip : (groups.zip (groups.map fun g => g.2.mapJumps (markLoop dom)))[k]? =
      some ((b, body), body.mapJumps (markLoop dom)) := by
    rw [List.getElem?_zip_eq_some, List.getElem?_map, hk]
    exact ⟨rfl, rfl⟩
  simp [ofGroups, group?, hzip]

theorem exists_group?_eq {t : ControlTree} {g : ControlGroup} (h : g ∈ t.groups) :
    ∃ id, t.group? id = some g := by
  obtain ⟨k, hk⟩ := List.mem_iff_getElem?.1 h
  exact ⟨⟨k⟩, hk⟩

theorem exists_of_group?_ofGroups {id : GroupId} {g : ControlGroup}
    (h : (ofGroups dom groups).group? id = some g) :
    ∃ body, groups[id.index]? = some (g.entry, body) ∧ g.body = body.mapJumps (markLoop dom) := by
  obtain ⟨⟨b, body⟩, hk⟩ : ∃ p, groups[id.index]? = some p := by
    rw [← Option.isSome_iff_exists]
    have hlt := (List.getElem?_eq_some_iff.1 h).1
    simp only [ofGroups, List.length_map, List.length_zipIdx, List.length_zip, Nat.min_self] at hlt
    simp [hlt]
  obtain ⟨g', hg', rfl, hbody⟩ := group?_ofGroups dom hk
  obtain rfl : g' = g := Option.some.inj (hg'.symm.trans h)
  exact ⟨body, hk, hbody⟩

theorem bodyAt_ofGroups (hn : (groups.map (·.1)).Nodup) (hk : groups[k]? = some (b, body)) :
    (ofGroups dom groups).bodyAt b = some (body.mapJumps (markLoop dom)) := by
  obtain ⟨g, hg, -, hbody⟩ := group?_ofGroups dom hk
  have hget : (ofGroups dom groups).groupOf b = some ⟨k⟩ := get?_entriesOf hn hk
  rw [bodyAt, hget, Option.bind_some, hg, Option.map_some, hbody]

/-- The body of each group that is built, with its loops marked, leads on as the terminators do. -/
theorem leads_of_grouped (hg : Func.Grouped f dom [] [f.entry] groups)
    (hb : (b, body) ∈ groups) :
    (∃ rest, body = .block b rest) ∧
      body.Leads f (· ∈ groups.map (·.1)) none (.next b) ∧ ∀ x ∈ body.conditions, f.Decides x := by
  obtain ⟨fuel, placed, c, hc, rfl⟩ := hg.chain _ hb
  have htarget : ∀ j ∈ (c.region.close c.exit).jumps, j.target ∈ groups.map (·.1) := hg.target _ hb
  have hinner : ∀ j ∈ c.region.jumps, j.target ∈ groups.map (·.1) := fun j hj =>
    htarget j (Region.mem_jumps_close.2 (.inl hj))
  obtain ⟨rest, hrest⟩ := Func.chain_region hc
  obtain ⟨hlead, hcond⟩ := Func.chain_leads hc hinner
  refine ⟨?_, hlead.close htarget, by rwa [Region.conditions_close]⟩
  rw [hrest]
  cases c.exit with
  | diverge => exact ⟨rest, rfl⟩
  | jump s t => exact ⟨rest.endWith ⟨s, t, false⟩, rfl⟩

theorem follows_ofGroups (hg : Func.Grouped f dom [] [f.entry] groups) :
    (ofGroups dom groups).Follows f (· ∈ groups.map (·.1)) where
  root := by
    obtain ⟨more, hmore⟩ := hg.first
    cases groups with
    | nil => cases hmore
    | cons g rest =>
      have hentry : g.1 = f.entry := (List.cons.inj hmore).1.symm
      have hfirst : (g :: rest)[0]? = some (g.1, g.2) := rfl
      have hget : (ofGroups dom (g :: rest)).groupOf g.1 = some ⟨0⟩ := get?_entriesOf hg.nodup hfirst
      rw [← hentry, hget]
      rfl
  start := hg.first.subset (List.mem_singleton_self _)
  body b hb := by
    obtain ⟨⟨b, body⟩, hmem, rfl⟩ := List.mem_map.1 hb
    obtain ⟨k, hk⟩ := List.mem_iff_getElem?.1 hmem
    obtain ⟨⟨rest, rfl⟩, hlead, -⟩ := leads_of_grouped hg hmem
    exact ⟨rest.mapJumps (markLoop dom), bodyAt_ofGroups hg.nodup hk,
      hlead.mapJumps (u := markLoop dom) fun _ => rfl⟩

theorem ofFunc_follows (hf : f.Sound) (hd : dom.IsOf f) {t : ControlTree}
    (h : ofFunc f dom = .ok t) :
    (∃ entry, t.Follows f entry) ∧ ∀ g ∈ t.groups, ∀ x ∈ g.body.conditions, f.Decides x := by
  obtain ⟨groups, hgroups, h⟩ := bind_eq_ok.1 h
  obtain rfl := pure_eq_ok.1 h
  have hg := Func.buildGroups_grouped hf hd rfl (Func.pending_start hd) hgroups
  refine ⟨⟨_, follows_ofGroups hg⟩, fun g hmem => ?_⟩
  obtain ⟨id, hk⟩ := exists_group?_eq hmem
  obtain ⟨body, hb, hbody⟩ := exists_of_group?_ofGroups hk
  rw [hbody, Region.conditions_mapJumps]
  exact (leads_of_grouped hg (List.mem_of_getElem? hb)).2.2

end ControlTree

end Midend
