import Midend.Interference
import Midend.Proofs.Liveness

namespace Midend

namespace Interference

variable {g h : Interference} {a b v w : ValueId}

def Edge (g : Interference) (a b : ValueId) : Prop := b ∈ g.neighbours a ∧ a ∈ g.neighbours b

def Le (g h : Interference) : Prop := ∀ a b, b ∈ g.neighbours a → b ∈ h.neighbours a

theorem Le.refl (g : Interference) : g.Le g := fun _ _ => id

theorem Le.trans {k : Interference} (hgh : g.Le h) (hhk : h.Le k) : g.Le k :=
  fun a b hab => hhk a b (hgh a b hab)

theorem Edge.mono (hle : g.Le h) (he : g.Edge a b) : h.Edge a b := ⟨hle a b he.1, hle b a he.2⟩

theorem Edge.symm (he : g.Edge a b) : g.Edge b a := ⟨he.2, he.1⟩

theorem contains_iff : g.contains v = true ↔ ∃ s, g.adjacency.get? v = some s := by
  rw [contains, OrderedMap.contains, Option.isSome_iff_exists]

theorem neighbours_addNode (g : Interference) (v w : ValueId) :
    (g.addNode v).neighbours w = g.neighbours w := by
  by_cases hw : w = v
  · simp [neighbours, addNode, hw]
  · simp [neighbours, addNode, hw]

theorem contains_addNode : (g.addNode v).contains w = true ↔ w = v ∨ g.contains w = true := by
  simp only [contains_iff, addNode, OrderedMap.get?_insert]
  by_cases hw : w = v <;> simp [hw]

theorem mem_neighbours_link :
    w ∈ (g.link a b).neighbours v ↔ (v = a ∧ w = b) ∨ w ∈ g.neighbours v := by
  simp only [neighbours, link, OrderedMap.get?_insert]
  by_cases hv : v = a <;> simp [hv]

theorem contains_link : (g.link a b).contains w = true ↔ w = a ∨ g.contains w = true := by
  simp only [contains_iff, link, OrderedMap.get?_insert]
  by_cases hw : w = a <;> simp [hw]

theorem le_link (g : Interference) (a b : ValueId) : g.Le (g.link a b) :=
  fun _ _ hb => mem_neighbours_link.2 (.inr hb)

theorem le_addEdge (g : Interference) (a b : ValueId) : g.Le (g.addEdge a b) := by
  unfold addEdge
  split
  · exact .refl g
  · exact (le_link g a b).trans (le_link _ b a)

theorem edge_addEdge (g : Interference) (hne : a ≠ b) : (g.addEdge a b).Edge a b := by
  rw [addEdge, if_neg hne]
  exact ⟨mem_neighbours_link.2 (.inr (mem_neighbours_link.2 (.inl ⟨rfl, rfl⟩))),
    mem_neighbours_link.2 (.inl ⟨rfl, rfl⟩)⟩

theorem contains_addEdge (h : (g.addEdge a b).contains w = true) :
    w = a ∨ w = b ∨ g.contains w = true := by
  unfold addEdge at h
  split at h
  · exact .inr (.inr h)
  · rw [contains_link, contains_link] at h
    exact h.elim (.inr ∘ .inl) fun h => h.imp_right .inr

theorem foldl_addEdge (ws : List ValueId) (g : Interference) (v : ValueId) :
    g.Le (ws.foldl (fun g w => g.addEdge v w) g) ∧
      (∀ w ∈ ws, w ≠ v → (ws.foldl (fun g w => g.addEdge v w) g).Edge v w) ∧
      ∀ w, (ws.foldl (fun g w => g.addEdge v w) g).contains w = true →
        w = v ∨ w ∈ ws ∨ g.contains w = true := by
  induction ws generalizing g with
  | nil => exact ⟨.refl g, by simp, fun w hw => .inr (.inr hw)⟩
  | cons u ws ih =>
    obtain ⟨hle, hedge, hnode⟩ := ih (g.addEdge v u)
    rw [List.foldl_cons]
    refine ⟨(le_addEdge g v u).trans hle, fun w hw hne => ?_, fun w hw => ?_⟩
    · rcases List.mem_cons.1 hw with rfl | hw
      · exact (edge_addEdge g hne.symm).mono hle
      · exact hedge w hw hne
    · rcases hnode w hw with hw | hw | hw
      · exact .inl hw
      · exact .inr (.inl (List.mem_cons_of_mem _ hw))
      · rcases contains_addEdge hw with hw | rfl | hw
        · exact .inl hw
        · exact .inr (.inl List.mem_cons_self)
        · exact .inr (.inr hw)

theorem define_spec (g : Interference) (live : OrderedSet ValueId) (v : ValueId) :
    g.Le (g.define live v) ∧ (∀ w ∈ live, w ≠ v → (g.define live v).Edge v w) ∧
      ∀ w, (g.define live v).contains w = true → w = v ∨ w ∈ live ∨ g.contains w = true := by
  obtain ⟨hle, hedge, hnode⟩ := foldl_addEdge live.toList (g.addNode v) v
  refine ⟨fun a b hb => hle a b ?_, hedge, fun w hw => ?_⟩
  · rw [neighbours_addNode]
    exact hb
  · rcases hnode w hw with hw | hw | hw
    · exact .inl hw
    · exact .inr (.inl hw)
    · exact (contains_addNode.1 hw).imp_right .inr

end Interference

namespace Liveness

variable {f : Func} {l : Liveness} {b : BlockId} {live : OrderedSet ValueId} {e : InstId × Inst}
  {v : ValueId}

/-- An instruction is the last to need a value in a block. -/
def EndsAt (l : Liveness) (b : BlockId) (i : InstId) (v : ValueId) : Prop :=
  l.lastUse v b = some (.inst i) ∧ l.isLiveOut v b = false

def kept (l : Liveness) (b : BlockId) (live : OrderedSet ValueId) (e : InstId × Inst) :
    OrderedSet ValueId :=
  e.2.operands.foldl
    (fun live v =>
      if l.lastUse v b = some (.inst e.1) && !l.isLiveOut v b then live.erase v else live) live

theorem mem_kept : v ∈ l.kept b live e ↔ v ∈ live ∧ ¬ (v ∈ e.2.operands ∧ l.EndsAt b e.1 v) := by
  unfold kept
  generalize e.2.operands = vs
  induction vs generalizing live with
  | nil => simp
  | cons u vs ih =>
    rw [List.foldl_cons, ih]
    by_cases hu : l.EndsAt b e.1 u
    · have hif : (l.lastUse u b = some (.inst e.1) && !l.isLiveOut u b) = true := by
        simp [hu.1, hu.2]
      rw [if_pos hif, OrderedSet.mem_erase]
      by_cases hv : v = u
      · subst hv
        simp [hu]
      · simp [hv]
    · have hif : ¬ (l.lastUse u b = some (.inst e.1) && !l.isLiveOut u b) = true := by
        simpa [EndsAt] using hu
      rw [if_neg hif]
      by_cases hv : v = u
      · subst hv
        simp [hu]
      · simp [hv]

def used (f : Func) (v : ValueId) : Bool := (f.values.get? v).any fun val => !val.isUnused

def after (l : Liveness) (f : Func) (b : BlockId) (live : OrderedSet ValueId)
    (e : InstId × Inst) : OrderedSet ValueId :=
  match e.2.result with
  | none => l.kept b live e
  | some r => if l.isCandidate r && used f r then (l.kept b live e).insert r else l.kept b live e

theorem mem_after : v ∈ l.after f b live e ↔ v ∈ l.kept b live e ∨
    (e.2.result = some v ∧ l.isCandidate v = true ∧ used f v = true) := by
  unfold after
  split
  · rename_i hr
    simp [hr]
  · rename_i r hr
    rw [hr]
    split <;> rename_i hc
    · rw [Bool.and_eq_true] at hc
      rw [OrderedSet.mem_insert, Option.some.injEq, or_comm]
      refine or_congr_right ⟨?_, fun h => h.1.symm⟩
      rintro rfl
      exact ⟨rfl, hc⟩
    · rw [Bool.and_eq_true] at hc
      constructor
      · exact .inl
      · rintro (h | ⟨hv, h⟩)
        · exact h
        · obtain rfl := Option.some.inj hv
          exact absurd h hc

end Liveness

namespace Interference

variable {f : Func} {d : Dominance} {l : Liveness} {g G : Interference} {b : BlockId}
  {v : ValueId} {live : OrderedSet ValueId}

/-- Each result of the instructions is a neighbour of everything that is live beside it. -/
def Clear (G : Interference) (f : Func) (l : Liveness) (b : BlockId) :
    OrderedSet ValueId → List (InstId × Inst) → Prop
  | _, [] => True
  | live, e :: es =>
    (∀ r, e.2.result = some r → l.isCandidate r = true →
      ∀ w ∈ l.kept b live e, w ≠ r → G.Edge r w) ∧ Clear G f l b (l.after f b live e) es

theorem Clear.mono (hle : g.Le G) {es : List (InstId × Inst)} (h : g.Clear f l b live es) :
    G.Clear f l b live es := by
  induction es generalizing live with
  | nil => trivial
  | cons e es ih => exact ⟨fun r hr hc w hw hne => (h.1 r hr hc w hw hne).mono hle, ih h.2⟩

structure Scan.Within (l : Liveness) (s : Scan) : Prop where
  live : ∀ v ∈ s.live, l.isCandidate v = true
  node : ∀ v, s.graph.contains v = true → l.isCandidate v = true

theorem Scan.Within.define {s : Scan} (h : s.Within l) {live : OrderedSet ValueId}
    (hlive : ∀ v ∈ live, l.isCandidate v = true) {r : ValueId} (hr : l.isCandidate r = true) :
    ∀ v, (s.graph.define live r).contains v = true → l.isCandidate v = true := by
  intro v hv
  rcases (define_spec s.graph live r).2.2 v hv with rfl | hv | hv
  · exact hr
  · exact hlive v hv
  · exact h.node v hv

theorem Scan.step_ok {s : Scan} (b : BlockId) (hs : s.Within l)
    (hlive : ∀ v, l.isCandidate v = true → ∃ val, f.values.get? v = some val)
    (e : InstId × Inst) :
    ∃ s', s.step f l b e.1 e.2 = .ok s' ∧ s'.Within l ∧ s.graph.Le s'.graph ∧
      s'.live = l.after f b s.live e ∧ ∀ r, e.2.result = some r → l.isCandidate r = true →
        ∀ w ∈ l.kept b s.live e, w ≠ r → s'.graph.Edge r w := by
  have hkept : ∀ v ∈ l.kept b s.live e, l.isCandidate v = true := fun v hv =>
    hs.live v (Liveness.mem_kept.1 hv).1
  have hstep : s.step f l b e.1 e.2 = match e.2.result with
      | none => .ok ⟨s.graph, l.kept b s.live e⟩
      | some r =>
        if l.isCandidate r then do
          let graph := s.graph.define (l.kept b s.live e) r
          return ⟨graph, if (← f.value r).isUnused then l.kept b s.live e
            else (l.kept b s.live e).insert r⟩
        else .ok ⟨s.graph, l.kept b s.live e⟩ := rfl
  rw [hstep, Liveness.after]
  cases hr : e.2.result with
  | none => exact ⟨_, rfl, ⟨hkept, hs.node⟩, .refl _, rfl, by simp⟩
  | some r =>
    dsimp only
    cases hc : l.isCandidate r with
    | false =>
      refine ⟨_, if_neg (by simp), ⟨hkept, hs.node⟩, .refl _, rfl, ?_⟩
      intro r' hr' hc'
      obtain rfl := Option.some.inj hr'
      rw [hc] at hc'
      cases hc'
    | true =>
      obtain ⟨val, hval⟩ := hlive r hc
      obtain ⟨hle, hedge, -⟩ := define_spec s.graph (l.kept b s.live e) r
      refine ⟨⟨s.graph.define (l.kept b s.live e) r, if val.isUnused then l.kept b s.live e
        else (l.kept b s.live e).insert r⟩, ?_, ⟨?_, hs.define hkept hc⟩, hle, ?_, ?_⟩
      · rw [if_pos rfl]
        exact bind_eq_ok.2 ⟨val, Func.value_eq_ok.2 hval, rfl⟩
      · dsimp only
        split
        · exact hkept
        · intro v hv
          rcases OrderedSet.mem_insert.1 hv with rfl | hv
          · exact hc
          · exact hkept v hv
      · simp only [Liveness.used, hval, Option.any_some, Bool.true_and]
        cases val.isUnused <;> rfl
      · intro r' hr' _ w hw hne
        obtain rfl := Option.some.inj hr'
        exact hedge w hw hne

theorem foldlM_step_ok {s : Scan} (hs : s.Within l)
    (hlive : ∀ v, l.isCandidate v = true → ∃ val, f.values.get? v = some val)
    (es : List (InstId × Inst)) :
    ∃ s', es.foldlM (fun s e => s.step f l b e.1 e.2) s = .ok s' ∧ s'.Within l ∧
      s.graph.Le s'.graph ∧ s'.graph.Clear f l b s.live es := by
  induction es generalizing s with
  | nil => exact ⟨s, rfl, hs, .refl _, trivial⟩
  | cons e es ih =>
    obtain ⟨t, hstep, ht, hle, hafter, hedges⟩ := Scan.step_ok b hs hlive e
    obtain ⟨s', hrun, hs', hle', hclear⟩ := ih ht
    rw [hafter] at hclear
    exact ⟨s', by rw [List.foldlM_cons]; exact bind_eq_ok.2 ⟨t, hstep, hrun⟩, hs', hle.trans hle',
      fun r hr hc w hw hne => (hedges r hr hc w hw hne).mono hle', hclear⟩

/-- Entering values one after the other makes all of them neighbours. -/
theorem foldl_enter (vs : List ValueId) {s : Scan} (hs : s.Within l)
    (hpair : ∀ v ∈ s.live, ∀ w ∈ s.live, v ≠ w → s.graph.Edge v w) :
    (vs.foldl (Scan.enter l) s).Within l ∧ s.graph.Le (vs.foldl (Scan.enter l) s).graph ∧
      (∀ v, v ∈ (vs.foldl (Scan.enter l) s).live ↔
        v ∈ s.live ∨ v ∈ vs ∧ l.isCandidate v = true) ∧
      ∀ v ∈ (vs.foldl (Scan.enter l) s).live, ∀ w ∈ (vs.foldl (Scan.enter l) s).live,
        v ≠ w → (vs.foldl (Scan.enter l) s).graph.Edge v w := by
  induction vs generalizing s with
  | nil => exact ⟨hs, .refl _, by simp, hpair⟩
  | cons u vs ih =>
    rw [List.foldl_cons]
    cases hu : l.isCandidate u with
    | false =>
      have hskip : s.enter l u = s := if_neg (by simp [hu])
      rw [hskip]
      obtain ⟨hw, hle, hmem, hedge⟩ := ih hs hpair
      refine ⟨hw, hle, fun v => ?_, hedge⟩
      rw [hmem v, List.mem_cons, or_and_right]
      refine or_congr_right ⟨.inr, fun h => h.resolve_left ?_⟩
      rintro ⟨rfl, hv⟩
      rw [hu] at hv
      cases hv
    | true =>
      have henter : s.enter l u = ⟨s.graph.define s.live u, s.live.insert u⟩ := if_pos hu
      rw [henter]
      obtain ⟨hle₀, hedge₀, -⟩ := define_spec s.graph s.live u
      have hs' : Scan.Within l ⟨s.graph.define s.live u, s.live.insert u⟩ := by
        refine ⟨fun v hv => ?_, hs.define hs.live hu⟩
        rcases OrderedSet.mem_insert.1 hv with rfl | hv
        · exact hu
        · exact hs.live v hv
      -- The new value is a neighbour of those before it, which are neighbours of each other
      -- already.
      obtain ⟨hw, hle, hmem, hedge⟩ := ih hs' (by
        intro v hv w hw hne
        rcases OrderedSet.mem_insert.1 hv with rfl | hv'
        · exact hedge₀ w ((OrderedSet.mem_insert.1 hw).resolve_left hne.symm) hne.symm
        · rcases OrderedSet.mem_insert.1 hw with rfl | hw'
          · exact (hedge₀ v hv' hne).symm
          · exact (hpair v hv' w hw' hne).mono hle₀)
      refine ⟨hw, hle₀.trans hle, fun v => ?_, hedge⟩
      rw [hmem v, OrderedSet.mem_insert, List.mem_cons]
      constructor
      · rintro ((rfl | h) | h)
        · exact .inr ⟨.inl rfl, hu⟩
        · exact .inl h
        · exact .inr ⟨.inr h.1, h.2⟩
      · rintro (h | ⟨rfl | h, hc⟩)
        · exact .inl (.inr h)
        · exact .inl (.inl rfl)
        · exact .inr ⟨h, hc⟩

/-- The values that come together at the start of a block. -/
def startOf (f : Func) (l : Liveness) (b : BlockId) : List ValueId :=
  l.liveIn b ++ (f.phisOf b).map (·.2.result) ++ if b = f.entry then f.arguments else []

theorem mem_startOf_iff : v ∈ startOf f l b ↔ l.isLiveIn v b = true ∨
    (∃ e ∈ f.phisOf b, e.2.result = v) ∨ b = f.entry ∧ v ∈ f.arguments := by
  have hin : v ∈ l.liveIn b ↔ l.isLiveIn v b = true := by
    refine List.mem_filter.trans (and_iff_right_of_imp fun hin => OrderedMap.mem_keys_iff.2 ?_)
    unfold Liveness.isLiveIn at hin
    cases hr : l.ranges.get? v with
    | none => simp [hr] at hin
    | some r => simp [OrderedMap.contains, hr]
  have hargs : v ∈ (if b = f.entry then f.arguments else []) ↔ b = f.entry ∧ v ∈ f.arguments := by
    split <;> simp [*]
  rw [startOf, List.mem_append, List.mem_append, hin, List.mem_map, hargs, or_assoc]

/-- What the graph knows about a block: the values at its start are neighbours, and so are each
result and what is live beside it. -/
def Covers (G : Interference) (f : Func) (l : Liveness) (b : BlockId) : Prop :=
  (∀ v ∈ startOf f l b, ∀ w ∈ startOf f l b, l.isCandidate v = true → l.isCandidate w = true →
    v ≠ w → G.Edge v w) ∧
  ∃ live : OrderedSet ValueId,
    (∀ v, v ∈ live ↔ v ∈ startOf f l b ∧ l.isCandidate v = true) ∧
      G.Clear f l b live (f.instsOf b)

theorem Covers.mono (hle : g.Le G) (h : g.Covers f l b) : G.Covers f l b := by
  obtain ⟨hstart, live, hmem, hclear⟩ := h
  exact ⟨fun v hv w hw hcv hcw hne => (hstart v hv w hw hcv hcw hne).mono hle, live, hmem,
    hclear.mono hle⟩

theorem scanBlock_ok (hnode : ∀ v, g.contains v = true → l.isCandidate v = true)
    (hlive : ∀ v, l.isCandidate v = true → ∃ val, f.values.get? v = some val) (b : BlockId) :
    ∃ g', scanBlock f l g (f.codeAt b) = .ok g' ∧
      (∀ v, g'.contains v = true → l.isCandidate v = true) ∧ g.Le g' ∧ g'.Covers f l b := by
  have hempty : Scan.Within l ⟨g, ∅⟩ := ⟨fun v hv => absurd hv (OrderedSet.notMem_empty v), hnode⟩
  obtain ⟨hw, hle, hmem, hedge⟩ := foldl_enter (startOf f l b) hempty fun v hv =>
    absurd hv (OrderedSet.notMem_empty v)
  obtain ⟨s, hrun, hs, hle', hclear⟩ := foldlM_step_ok hw hlive (f.instsOf b) (b := b)
  have hmem' : ∀ v, v ∈ ((startOf f l b).foldl (Scan.enter l) ⟨g, ∅⟩).live ↔
      v ∈ startOf f l b ∧ l.isCandidate v = true := fun v =>
    (hmem v).trans (or_iff_right (OrderedSet.notMem_empty v))
  refine ⟨s.graph, bind_eq_ok.2 ⟨s, hrun, rfl⟩, hs.node, hle.trans hle', ?_, _, hmem', hclear⟩
  intro v hv w hw hcv hcw hne
  exact (hedge v ((hmem' v).2 ⟨hv, hcv⟩) w ((hmem' w).2 ⟨hw, hcw⟩) hne).mono hle'

theorem foldlM_scanBlock_ok (hnode : ∀ v, g.contains v = true → l.isCandidate v = true)
    (hlive : ∀ v, l.isCandidate v = true → ∃ val, f.values.get? v = some val)
    (bs : List BlockId) :
    ∃ g', (bs.map f.codeAt).foldlM (scanBlock f l) g = .ok g' ∧
      (∀ v, g'.contains v = true → l.isCandidate v = true) ∧ g.Le g' ∧
      ∀ b ∈ bs, g'.Covers f l b := by
  induction bs generalizing g with
  | nil => exact ⟨g, rfl, hnode, .refl g, by simp⟩
  | cons b bs ih =>
    obtain ⟨g₁, hrun₁, hnode₁, hle₁, hcov₁⟩ := scanBlock_ok hnode hlive b
    obtain ⟨g₂, hrun₂, hnode₂, hle₂, hcov₂⟩ := ih hnode₁
    refine ⟨g₂, ?_, hnode₂, hle₁.trans hle₂, ?_⟩
    · rw [List.map_cons, List.foldlM_cons]
      exact bind_eq_ok.2 ⟨g₁, hrun₁, hrun₂⟩
    · exact List.forall_mem_cons.2 ⟨hcov₁.mono hle₂, hcov₂⟩

theorem adjacency_addEquality (g : Interference) (v w : ValueId) :
    (g.addEquality v w).adjacency = g.adjacency := by
  unfold addEquality
  dsimp only
  split
  · rfl
  · split <;> rfl

theorem adjacency_foldl_addPhi (ps : List Phi) (g : Interference) :
    (ps.foldl addPhi g).adjacency = g.adjacency := by
  have hfold : ∀ (vs : List ValueId) (v : ValueId) (g : Interference),
      (vs.foldl (fun g w => g.addEquality v w) g).adjacency = g.adjacency := by
    intro vs v g
    induction vs generalizing g with
    | nil => rfl
    | cons w vs ih => rw [List.foldl_cons, ih, adjacency_addEquality]
  induction ps generalizing g with
  | nil => rfl
  | cons p ps ih =>
    rw [List.foldl_cons, ih, addPhi]
    split
    · exact hfold _ _ _
    · rfl

theorem Le.of_adjacency {h : Interference} (hadj : h.adjacency = g.adjacency) : g.Le h := by
  intro a b hb
  rw [neighbours, hadj]
  exact hb

/-- The interference graph of a sound function is there, covers every reachable block, and has only
candidates as nodes. -/
theorem ofLiveness_ok (hl : l.IsOf f d) (hd : d.IsOf f) :
    ∃ G, ofLiveness f l = .ok G ∧ (∀ v, G.contains v = true → l.isCandidate v = true) ∧
      ∀ b, d.isReachable b = true → G.Covers f l b := by
  have hlive : ∀ v, l.isCandidate v = true → ∃ val, f.values.get? v = some val := by
    intro v hv
    obtain ⟨home, isArgument, val, hval, -⟩ := hl.isCandidate_iff.1 hv
    exact ⟨val, hval⟩
  have hnodes : ∀ (vs : List ValueId) (g : Interference),
      (∀ v, g.contains v = true → l.isCandidate v = true) →
      (∀ v ∈ vs, l.isCandidate v = true) →
      ∀ v, (vs.foldl addNode g).contains v = true → l.isCandidate v = true := by
    intro vs
    induction vs with
    | nil => exact fun g hg _ => hg
    | cons w vs ih =>
      intro g hg hvs
      obtain ⟨hw, hvs⟩ := List.forall_mem_cons.1 hvs
      refine ih _ (fun v hv => ?_) hvs
      rcases contains_addNode.1 hv with rfl | hv
      · exact hw
      · exact hg v hv
  have hstart := hnodes l.candidates {} (fun v hv => by cases hv) fun v hv =>
    OrderedMap.mem_keys_iff.1 hv
  obtain ⟨g, hrun, hnode, -, hcov⟩ := foldlM_scanBlock_ok hstart hlive d.reachableBlocks
  rw [← hl.code] at hrun
  refine ⟨_, bind_eq_ok.2 ⟨g, hrun, rfl⟩, fun v hv => hnode v ?_, fun b hb => ?_⟩
  · rw [contains, adjacency_foldl_addPhi] at hv
    exact hv
  · refine (hcov b ?_).mono (.of_adjacency (adjacency_foldl_addPhi _ g))
    rw [hd.isReachable_iff, ← hd.entry] at hb
    exact (hd.tree.mem_order_iff (Func.blockGraph_consistent f)).2 hb

end Interference

namespace Liveness

variable {f : Func} {d : Dominance} {l : Liveness} {b : BlockId} {v : ValueId}
  {live : OrderedSet ValueId} {e : InstId × Inst} {es pre : List (InstId × Inst)}

/-- Every value that the rest of a block or what comes after it needs, and that the rest does not
define, is live. -/
def Holds (l : Liveness) (b : BlockId) (es : List (InstId × Inst)) (live : OrderedSet ValueId) :
    Prop :=
  ∀ v, l.isCandidate v = true → l.Consumed v →
    (l.isLiveOut v b = true ∨ ∃ e ∈ es, v ∈ e.2.operands) →
    (∀ e ∈ es, e.2.result ≠ some v) → v ∈ live

namespace IsOf

theorem used_of_consumed (hl : l.IsOf f d) (hf : f.Sound) (hd : d.IsOf f)
    (hc : l.isCandidate v = true) (hcons : l.Consumed v) : used f v = true := by
  obtain ⟨home, isArgument, val, hval, -⟩ := hl.isCandidate_iff.1 hc
  have huse : ∃ u, 0 < f.held v u := by
    obtain ⟨c, hcons⟩ := hcons
    obtain ⟨code, hcode, ⟨htaken, -⟩ | ⟨hreads, -⟩⟩ := mem_consumingBlocks.1 hcons
    · obtain ⟨b, -, rfl⟩ := (hl.mem_code hd).1 hcode
      obtain ⟨e, he, hmem⟩ := List.mem_flatMap.1 htaken
      obtain ⟨s, hs, -⟩ := List.mem_map.1 hmem
      obtain ⟨hs, hsv⟩ := List.mem_filter.1 hs
      obtain ⟨data, -, -, hphi⟩ := Func.mem_phisOf.1 he
      have hsource : e.2.source s.1 = some v := by
        rw [← of_decide_eq_true hsv]
        exact OrderedMap.mem_toList.1 hs
      exact ⟨_, Func.held_source_pos hphi hsource⟩
    · obtain ⟨b, -, rfl⟩ := (hl.mem_code hd).1 hcode
      obtain ⟨e, he, hmem⟩ := List.any_eq_true.1 hreads
      obtain ⟨data, -, -, hinst⟩ := Func.mem_instsOf.1 he
      exact ⟨_, Func.held_operand_pos hinst (List.contains_iff_mem.1 hmem)⟩
  obtain ⟨u, hu⟩ := huse
  rw [used, hval, Option.any_some, Bool.not_eq_true', ← Bool.not_eq_true,
    Value.isUnused_iff (hf.uses.counted v val hval)]
  intro hnone
  rw [← hf.uses.uses v val u hval, hnone u] at hu
  exact absurd hu (Nat.lt_irrefl 0)

theorem holds_step (hl : l.IsOf f d) (hf : f.Sound) (hd : d.IsOf f) (hb : d.isReachable b = true)
    (hsplit : f.instsOf b = pre ++ e :: es) (hh : l.Holds b (e :: es) live) :
    l.Holds b es (l.after f b live e) := by
  intro v hc hcons hneed hdef
  rw [mem_after]
  by_cases hr : e.2.result = some v
  · exact .inr ⟨hr, hc, hl.used_of_consumed hf hd hc hcons⟩
  · left
    have hlive : v ∈ live := by
      refine hh v hc hcons ?_ (List.forall_mem_cons.2 ⟨hr, hdef⟩)
      exact hneed.imp_right fun ⟨e', he', hmem⟩ => ⟨e', List.mem_cons_of_mem _ he', hmem⟩
    refine mem_kept.2 ⟨hlive, ?_⟩
    rintro ⟨-, hlast, hout⟩
    rcases hneed with hneed | ⟨e', he', hmem⟩
    · rw [hout] at hneed
      cases hneed
    · exact hl.notMem_of_lastUse hf hd hb hsplit hlast e' he' hmem

/-- What a block needs and does not define itself comes together at its start. -/
theorem mem_startOf (hl : l.IsOf f d) (hf : f.Sound) (hd : d.IsOf f) (hb : d.isReachable b = true)
    (hc : l.isCandidate v = true)
    (hneed : l.isLiveOut v b = true ∨ ∃ e ∈ f.instsOf b, v ∈ e.2.operands)
    (hdef : ∀ e ∈ f.instsOf b, e.2.result ≠ some v) : v ∈ Interference.startOf f l b := by
  have hin : l.isLiveInBlock v b = true := by
    rcases hneed with hout | ⟨e, he, hmem⟩
    · exact ((hl.isLiveOut_iff hd).1 hout).1
    · obtain ⟨r, hr⟩ := Option.isSome_iff_exists.1 hc
      refine isLiveInBlock_iff.2 ⟨r, hr, ?_⟩
      exact (hl.blocks_spec hf hd hr).2.1 b (hl.consumes_operand hd hb he hmem)
  refine Interference.mem_startOf_iff.2 ?_
  rcases hl.home_or_liveIn hd hin with hin | ⟨r, hr, hhome⟩
  · exact .inl hin
  · -- Defined here, and not by an instruction: by a phi, or as an argument.
    obtain ⟨⟨val, hval, -, hblock, -, -⟩, -⟩ := (hl.range v r).1 hr
    rw [hhome] at hblock
    rcases Func.defBlock_cases hval hblock with ⟨i, inst, hdef', hinst, rfl⟩ |
      ⟨p, phi, hdef', hphi, rfl⟩ | ⟨n, hdef', rfl⟩
    · obtain ⟨inst', hinst', hres⟩ := hf.linked.inst_origin v val i hval hdef'
      obtain rfl := Option.some.inj (hinst.symm.trans hinst')
      obtain ⟨data, hdata, hmem⟩ := hf.linked.inst_listed i inst hinst id
      exact absurd hres (hdef (i, inst) (Func.mem_instsOf.2 ⟨data, hdata, hmem, hinst⟩))
    · obtain ⟨phi', hphi', hres⟩ := hf.linked.phi_origin v val p hval hdef'
      obtain rfl := Option.some.inj (hphi.symm.trans hphi')
      obtain ⟨data, hdata, hmem⟩ := hf.linked.phi_listed p phi hphi id
      exact .inr (.inl ⟨(p, phi), Func.mem_phisOf.2 ⟨data, hdata, hmem, hphi⟩, hres⟩)
    · exact .inr (.inr ⟨rfl, (hf.linked.argument_iff v).2 ⟨val, n, hval, hdef'⟩⟩)

theorem holds_start (hl : l.IsOf f d) (hf : f.Sound) (hd : d.IsOf f) (hb : d.isReachable b = true)
    (hlive : ∀ v, v ∈ live ↔ v ∈ Interference.startOf f l b ∧ l.isCandidate v = true) :
    l.Holds b (f.instsOf b) live := fun v hc _ hneed hdef =>
  (hlive v).2 ⟨hl.mem_startOf hf hd hb hc hneed hdef, hc⟩

end IsOf

end Liveness

theorem Func.Verified.operand_not_defined {f : Func} {d : Dominance} {b : BlockId} {v : ValueId}
    {e : InstId × Inst} {es pre : List (InstId × Inst)} (hv : f.Verified d) (hf : f.Sound)
    (hb : d.isReachable b = true) (hsplit : f.instsOf b = pre ++ e :: es)
    (hread : v ∈ e.2.operands) : ∀ e' ∈ e :: es, e'.2.result ≠ some v := by
  intro e' he' hr
  obtain ⟨data, hdata, -, hinst⟩ := mem_instsOf.1 (show e ∈ f.instsOf b by rw [hsplit]; simp)
  obtain ⟨data', hdata', -, hinst'⟩ := mem_instsOf.1
    (show e' ∈ f.instsOf b by rw [hsplit]; exact List.mem_append_right _ he')
  have hids := hf.linked.map_fst_instsOf hdata
  have hk : data.insts[pre.length]? = some e.1 := by
    rw [← hids, hsplit]
    simp
  have havail := hv.operand b data pre.length e.1 e.2 v hb hdata hk hinst hread
  obtain ⟨val, hval, hdef⟩ := hf.linked.inst_result e'.1 e'.2 v hinst' hr
  obtain ⟨inst'', hinst'', hblock⟩ := hf.linked.listed_inst b data e'.1 hdata (by
    rw [← hids, hsplit]
    exact List.mem_map_of_mem (List.mem_append_right _ he'))
  simp only [availableAt, hval, hdef, definedAt, hinst'', hblock, hdata,
    Option.bind_some, ne_eq, not_true_eq_false, if_false] at havail
  split at havail
  · cases havail
  · rename_i k hpos
    -- A block lists each instruction once, and this one stands behind the first `pre.length`.
    have hnd := hf.linked.instsOf_nodup b
    rw [hsplit, List.map_append, List.nodup_append] at hnd
    have hget : data.insts[k]? = some e'.1 := by
      obtain ⟨hlt, heq, -⟩ := List.idxOf?_eq_some_iff.1 hpos
      exact List.getElem?_eq_some_iff.2 ⟨hlt, heq⟩
    refine hnd.2.2 e'.1 ?_ e'.1 (List.mem_map_of_mem he') rfl
    have hlt : k < (pre.map (·.1)).length := by simpa using havail
    rw [← hids, hsplit, List.map_append, List.getElem?_append_left hlt] at hget
    exact List.mem_of_getElem? hget

theorem Edit.interference_ok {f : Func} (hf : f.Sound) (hv : (verify.apply f).1 = .ok ()) :
    ∃ d l G, f.Verified d ∧ l.IsOf f d ∧ (liveness.apply f).1 = .ok l ∧
      (∀ v, G.contains v = true → l.isCandidate v = true) ∧
      (∀ b, d.isReachable b = true → G.Covers f l b) ∧
      interference.apply f = (.ok G, { f with dominance := some d }) := by
  obtain ⟨d, l, hverified, hl, hlive⟩ := liveness_ok hf hv
  obtain ⟨G, hG, hnode, hcovers⟩ := Interference.ofLiveness_ok hl hverified.dominance
  refine ⟨d, l, G, hverified, hl, by rw [hlive], hnode, hcovers, ?_⟩
  unfold interference
  rw [apply_bind, hlive]
  dsimp only
  rw [apply_query]
  exact congrArg (·, _) hG

end Midend
