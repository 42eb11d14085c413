import Midend.Func.Basic
import Midend.Proofs.Arena
import Midend.Proofs.Edit.Steps
import Midend.Proofs.Graph.Dominators

namespace Midend

theorem nodup_eraseDups {α : Type} [BEq α] [LawfulBEq α] (bs : List α) :
    bs.eraseDups.Nodup := by
  induction hn : bs.length using Nat.strongRecOn generalizing bs with
  | ind n ih =>
    cases bs with
    | nil => simp
    | cons b bs =>
      rw [List.eraseDups_cons, List.nodup_cons]
      subst hn
      refine ⟨?_, ih _ ?_ _ rfl⟩
      · simp
      · have := List.length_filter_le (fun c => !c == b) bs
        simp only [List.length_cons]
        omega

namespace EdgeLists

theorem eq_nil_of_empty {n k : Nat} {bs : List BlockId}
    (h : (empty n).successors[k]? = some bs ∨ (empty n).predecessors[k]? = some bs) : bs = [] := by
  have hlist : (Array.replicate n ([] : List BlockId))[k]? = some bs := h.elim id id
  rw [Array.getElem?_replicate] at hlist
  split at hlist
  · exact (Option.some.inj hlist).symm
  · cases hlist

theorem successors_foldl_add (b : BlockId) (ts : List BlockId) (t : EdgeLists) (k : Nat) :
    (ts.foldl (fun t s => t.add b s) t).successors[k]? =
      t.successors[k]?.map fun ss => if b.index = k then ss ++ ts else ss := by
  induction ts generalizing t with
  | nil => simp
  | cons s ts ih =>
    rw [List.foldl_cons, ih, add, Array.getElem?_modify]
    by_cases hk : b.index = k
    · simp [hk, Option.map_map, Function.comp_def]
    · simp [hk]

theorem predecessors_foldl_add (b : BlockId) (ts : List BlockId) (t : EdgeLists) (k : Nat) :
    (ts.foldl (fun t s => t.add b s) t).predecessors[k]? =
      t.predecessors[k]?.map fun ps => if ⟨k⟩ ∈ ts ∧ b ∉ ps then ps ++ [b] else ps := by
  induction ts generalizing t with
  | nil => simp
  | cons s ts ih =>
    rw [List.foldl_cons, ih, add, Array.getElem?_modify]
    by_cases hk : s.index = k
    · subst hk
      rw [if_pos rfl, Option.map_map]
      congr 1
      funext ps
      by_cases hb : b ∈ ps <;> simp [hb]
    · have hne : (⟨k⟩ : BlockId) ≠ s := fun h => hk (by rw [← h])
      simp [hk, hne]

theorem successors_foldl_targets (targets : BlockId → List BlockId) {bs : List BlockId}
    (hn : bs.Nodup) (t : EdgeLists) (k : Nat) :
    (bs.foldl (fun t b => (targets b).foldl (fun t s => t.add b s) t) t).successors[k]? =
      t.successors[k]?.map fun ss => if ⟨k⟩ ∈ bs then ss ++ targets ⟨k⟩ else ss := by
  induction bs generalizing t with
  | nil => simp
  | cons b bs ih =>
    obtain ⟨hb, hn⟩ := List.nodup_cons.1 hn
    rw [List.foldl_cons, ih hn, successors_foldl_add, Option.map_map]
    congr 1
    funext ss
    by_cases hk : b.index = k
    · subst hk
      simp [hb]
    · have hne : (⟨k⟩ : BlockId) ≠ b := fun h => hk (by rw [← h])
      simp [hk, hne]

/-- A block that comes once is not among the predecessors before its turn, so it is added to the
lists of all its targets. -/
theorem predecessors_foldl_targets (targets : BlockId → List BlockId) {bs : List BlockId}
    (hn : bs.Nodup) (t : EdgeLists) {k : Nat}
    (hnew : ∀ ps, t.predecessors[k]? = some ps → ∀ b ∈ bs, b ∉ ps) :
    (bs.foldl (fun t b => (targets b).foldl (fun t s => t.add b s) t) t).predecessors[k]? =
      t.predecessors[k]?.map fun ps => ps ++ bs.filter fun b => (targets b).contains ⟨k⟩ := by
  induction bs generalizing t with
  | nil => simp
  | cons b bs ih =>
    obtain ⟨hb, hn⟩ := List.nodup_cons.1 hn
    have hone := predecessors_foldl_add b (targets b) t k
    cases hps : t.predecessors[k]? with
    | none =>
      rw [hps, Option.map_none] at hone
      rw [List.foldl_cons, ih hn _ (by rw [hone]; nofun), hone]
      rfl
    | some ps =>
      obtain ⟨hbps, hnew⟩ := List.forall_mem_cons.1 (hnew ps hps)
      rw [hps, Option.map_some] at hone
      rw [List.foldl_cons, ih hn _ ?_, hone]
      · by_cases hk : (⟨k⟩ : BlockId) ∈ targets b <;> simp [hk, hbps]
      · rintro ps' hps' c hc
        obtain rfl := Option.some.inj (hone.symm.trans hps')
        have hcb : c ≠ b := fun h => hb (h ▸ hc)
        split
        · simp [hnew c hc, hcb]
        · exact hnew c hc

end EdgeLists

namespace Func

variable {f g : Func} {b p s : BlockId}

theorem mem_blockIds : b ∈ f.blockIds ↔ f.hasBlock b = true := Arena.mem_live

theorem blockIds_nodup (f : Func) : f.blockIds.Nodup := f.blocks.nodup_live

theorem blockGraph_size (f : Func) : f.blockGraph.size = f.blocks.size := by
  simp [blockGraph, BlockGraph.size, Arena.size]

theorem hasBlock_lt (h : f.hasBlock b = true) : b.index < f.blocks.size := by
  refine Nat.lt_of_not_le fun hle => ?_
  rw [hasBlock, Arena.contains, Arena.get?_eq_none_of_size_le hle] at h
  cases h

theorem blockGraph_successorsOf (f : Func) (b : BlockId) :
    f.blockGraph.successorsOf b =
      if f.hasBlock b then (f.successors b).filter f.hasBlock else [] := by
  simp only [blockGraph, BlockGraph.successorsOf, Array.getD_eq_getD_getElem?]
  rw [EdgeLists.successors_foldl_targets _ f.blockIds_nodup]
  by_cases hb : f.hasBlock b = true
  · simp [EdgeLists.empty, hasBlock_lt hb, mem_blockIds, hb]
  · cases hget : (EdgeLists.empty f.blocks.size).successors[b.index]? with
    | none => simp [hb]
    | some ss =>
      obtain rfl : ss = [] := EdgeLists.eq_nil_of_empty (.inl hget)
      simp [mem_blockIds, hb]

theorem mem_blockGraph_successorsOf :
    s ∈ f.blockGraph.successorsOf b ↔
      f.hasBlock b = true ∧ f.hasBlock s = true ∧ s ∈ f.successors b := by
  rw [blockGraph_successorsOf]
  split
  · simp [*, and_comm]
  · simp [*]

theorem blockGraph_predecessorsOf (f : Func) (s : BlockId) :
    f.blockGraph.predecessorsOf s =
      f.blockIds.filter fun b => ((f.successors b).filter f.hasBlock).contains s := by
  simp only [blockGraph, BlockGraph.predecessorsOf, Array.getD_eq_getD_getElem?]
  rw [EdgeLists.predecessors_foldl_targets _ f.blockIds_nodup]
  · by_cases hs : s.index < f.blocks.size
    · simp [EdgeLists.empty, hs]
    · have hdead : f.hasBlock s = false := by
        cases h : f.hasBlock s with
        | false => rfl
        | true => exact absurd (hasBlock_lt h) hs
      simp [EdgeLists.empty, hs, hdead]
  · intro ps hps b _
    obtain rfl : ps = [] := EdgeLists.eq_nil_of_empty (.inr hps)
    exact List.not_mem_nil

theorem mem_blockGraph_predecessorsOf :
    p ∈ f.blockGraph.predecessorsOf s ↔ s ∈ f.blockGraph.successorsOf p := by
  rw [blockGraph_predecessorsOf, mem_blockGraph_successorsOf, List.mem_filter, mem_blockIds,
    List.contains_iff_mem, List.mem_filter]
  exact ⟨fun h => ⟨h.1, h.2.2, h.2.1⟩, fun h => ⟨h.1, h.2.2, h.2.1⟩⟩

theorem blockGraph_consistent (f : Func) : f.blockGraph.toFlowGraph.Consistent where
  below n s hs := by
    have hlive : f.hasBlock s = true := (mem_blockGraph_successorsOf.1 hs).2.1
    show s.index < f.blockGraph.size
    rw [blockGraph_size]
    exact hasBlock_lt hlive
  converse n p := mem_blockGraph_predecessorsOf
  distinct n := by
    have hn := (blockIds_nodup f).filter fun b => ((f.successors b).filter f.hasBlock).contains n
    rw [← blockGraph_predecessorsOf] at hn
    exact hn

theorem blockGraph_congr (hentry : g.entry = f.entry) (hsize : g.blocks.size = f.blocks.size)
    (hlive : ∀ b, g.hasBlock b = f.hasBlock b)
    (hsucc : ∀ b, f.hasBlock b = true → g.successors b = f.successors b) :
    g.blockGraph = f.blockGraph := by
  have hlive' : g.hasBlock = f.hasBlock := funext hlive
  have hids : g.blockIds = f.blockIds := by
    unfold blockIds Arena.live Arena.handles
    rw [show g.blocks.slots.size = f.blocks.slots.size from hsize]
    exact List.filter_congr fun b _ => hlive b
  have hslots : g.blocks.slots.map Option.isSome = f.blocks.slots.map Option.isSome := by
    refine Array.ext (by simpa [Arena.size] using hsize) fun k hk hk' => ?_
    have hget := hlive ⟨k⟩
    simp only [Array.size_map] at hk hk'
    simp only [hasBlock, Arena.contains, Arena.get?, Array.getD_eq_getD_getElem?,
      Array.getElem?_eq_getElem hk, Array.getElem?_eq_getElem hk', Option.getD_some] at hget
    simpa using hget
  -- The pass asks for the targets of live blocks alone.
  have htargets : ∀ t, ∀ b ∈ f.blockIds,
      ((g.successors b).filter f.hasBlock).foldl (fun t s => EdgeLists.add t b s) t =
        ((f.successors b).filter f.hasBlock).foldl (fun t s => EdgeLists.add t b s) t :=
    fun t b hb => by rw [hsucc b (mem_blockIds.1 hb)]
  simp only [blockGraph, hentry, hslots, hsize, hids, hlive', List.foldl_ext _ _ _ htargets]

end Func

/-- `d` is the dominance of the function as it stands. -/
structure Dominance.IsOf (d : Dominance) (f : Func) : Prop where
  graph : d.graph = f.blockGraph
  entry : d.tree.entry = f.entry
  tree : d.tree.IsFor f.blockGraph.toFlowGraph
  frontiers : d.frontiers = f.blockGraph.toFlowGraph.frontiers d.tree

namespace Dominance.IsOf

variable {f : Func} {d : Dominance} {b p s : BlockId}

theorem isReachable_iff (h : d.IsOf f) :
    d.isReachable b = true ↔ f.blockGraph.toFlowGraph.Reaches f.entry b := by
  rw [← h.entry]
  exact h.tree.isReachable_iff b

theorem entry_isReachable (h : d.IsOf f) : d.isReachable f.entry = true :=
  h.isReachable_iff.2 (.refl f.entry)

theorem isReachable_of_path (h : d.IsOf f) (hb : d.isReachable b = true) {path : List BlockId}
    (hp : f.blockGraph.toFlowGraph.Path b s path) : d.isReachable s = true := by
  obtain ⟨_, hb⟩ := h.isReachable_iff.1 hb
  exact h.isReachable_iff.2 ⟨_, hb.append hp⟩

theorem mem_livePredecessors (h : d.IsOf f) :
    p ∈ d.livePredecessors s ↔ s ∈ f.blockGraph.successorsOf p ∧ d.isReachable p = true := by
  rw [livePredecessors, List.mem_filter, h.graph, Func.mem_blockGraph_predecessorsOf]

theorem isReachable_of_mem (h : d.IsOf f) (hp : p ∈ d.livePredecessors s) :
    d.isReachable s = true := by
  obtain ⟨hs, hr⟩ := h.mem_livePredecessors.1 hp
  obtain ⟨path, hpath⟩ := h.isReachable_iff.1 hr
  exact h.isReachable_iff.2 ⟨_, hpath.step hs⟩

theorem livePredecessors_nodup (h : d.IsOf f) (b : BlockId) : (d.livePredecessors b).Nodup := by
  refine List.Nodup.filter _ ?_
  rw [h.graph]
  exact (Func.blockGraph_consistent f).distinct b

end Dominance.IsOf

namespace Func

variable {f g : Func} {d : Dominance}

theorem computeDominance_isOf {limit : Nat} (h : f.computeDominance limit = .ok d) : d.IsOf f := by
  obtain ⟨tree, htree, hd⟩ := bind_eq_ok.1 h
  obtain rfl := pure_eq_ok.1 hd
  obtain ⟨hentry, hfor⟩ := FlowGraph.dominators_isFor (blockGraph_consistent f) htree
  exact ⟨rfl, hentry, hfor, rfl⟩

/-- The cached dominance is the one that would be computed now. -/
def Coherent (f : Func) : Prop :=
  ∀ d, f.dominance = some d → f.computeDominance f.dominanceLimit = .ok d

theorem Coherent.of_none (h : f.dominance = none) : f.Coherent := by
  intro d hd
  rw [h] at hd
  cases hd

theorem Coherent.congr (h : f.Coherent) (hdom : g.dominance = f.dominance)
    (hlimit : g.dominanceLimit = f.dominanceLimit) (hgraph : g.blockGraph = f.blockGraph) :
    g.Coherent := by
  intro d hd
  rw [computeDominance, hgraph, hlimit]
  exact h d (hdom ▸ hd)

end Func

namespace Edit

variable {f : Func}

/-- Asking for the dominance of a coherent function caches it and changes nothing else. -/
theorem dominance_yields (h : f.Coherent) :
    dominance.Yields f fun d g =>
      f.computeDominance f.dominanceLimit = .ok d ∧ g = { f with dominance := some d } := by
  refine .get_bind ?_
  cases hd : f.dominance with
  | some d =>
    refine .pure ⟨h d hd, ?_⟩
    cases f
    simp_all
  | none =>
    refine .query_bind fun d hcompute => ?_
    exact .inr ⟨d, _, rfl, hcompute, rfl⟩

theorem dominance?_apply (f : Func) :
    dominance?.apply f = (.ok (dominance.apply f).1.toOption, (dominance.apply f).2) := by
  unfold dominance?
  generalize dominance = e
  unfold apply StateT.run ExceptT.run
  rcases hr : e f with ⟨_ | d, g⟩
  all_goals
    simp only [bind, ExceptT.bind, ExceptT.mk, StateT.bind, tryCatch, tryCatchThe,
      MonadExceptOf.tryCatch, ExceptT.tryCatch, ExceptT.bindCont, hr]
    rfl

/-- The verifier looks at the function that asking for its dominance leaves. -/
theorem verify_apply (f : Func) :
    verify.apply f =
      let dom := (dominance.apply f).1.toOption
      let g := (dominance.apply f).2
      (if (g.violations dom).isEmpty then .ok () else .error (.verification (g.violations dom)),
        g) := by
  unfold verify
  rw [apply_bind, dominance?_apply]
  dsimp only
  rw [apply_bind, apply_get]
  dsimp only
  split <;> simp_all

end Edit

end Midend
