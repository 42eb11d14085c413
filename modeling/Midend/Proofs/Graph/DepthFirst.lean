import Mathlib.Data.Finset.Card
import Mathlib.Data.List.Perm.Basic
import Midend.Proofs.Graph.Dominators

/-!
Depth-first orders as a recursion. The stack walks push a node once for every edge to it that they
meet in time, so a node can stand on the stack after it was entered; it is then popped without
effect. What remains is the recursive search, which enters a node unless it has been entered, goes
through its successors in turn, and leaves it.
-/

namespace Midend

/-- A loop that pops its stack until nothing is left. `step a s` is what popping `a` in the state
`s` pushes in its place and the state after that; the loop goes from one state to another in `n`
pops. -/
inductive Drains {α σ : Type} (step : α → σ → List α × σ) : Nat → List α → σ → σ → Prop where
  | done (s : σ) : Drains step 0 [] s s
  | pop {n : Nat} {a : α} {stack : List α} {s s' : σ} :
      Drains step n ((step a s).1 ++ stack) (step a s).2 s' → Drains step (n + 1) (a :: stack) s s'

/-- The upper part of the stack is gone before the lower one is touched. -/
theorem Drains.append {α σ : Type} {step : α → σ → List α × σ} {m n : Nat} {as bs : List α}
    {s t u : σ} (has : Drains step m as s t) (hbs : Drains step n bs t u) :
    Drains step (m + n) (as ++ bs) s u := by
  induction has with
  | done => simpa using hbs
  | @pop m a stack s t _ ih =>
    rw [Nat.add_right_comm]
    refine .pop ?_
    have happend : (step a s).1 ++ (stack ++ bs) = (step a s).1 ++ stack ++ bs :=
      (List.append_assoc _ _ _).symm
    exact happend ▸ ih hbs

/-- The nodes that a search has entered and those that it has left, in the order of time. -/
structure Trail where
  entered : List BlockId := []
  left : List BlockId := []
deriving DecidableEq, Repr

namespace Trail

def enter (t : Trail) (n : BlockId) : Trail := { t with entered := t.entered ++ [n] }

def leave (t : Trail) (n : BlockId) : Trail := { t with left := t.left ++ [n] }

def Marked (t : Trail) (visited : IndexSet) : Prop :=
  ∀ x : BlockId, visited.contains x.index = true ↔ x ∈ t.entered

theorem Marked.insert {t : Trail} {visited : IndexSet} (h : t.Marked visited) (n : BlockId) :
    (t.enter n).Marked (visited.insert n.index) := by
  intro x
  rw [IndexSet.contains_insert_index, h, enter, List.mem_append, List.mem_singleton, or_comm]

theorem Marked.mem {t : Trail} {visited : IndexSet} (h : t.Marked visited) {x : BlockId}
    (hx : (!visited.contains x.index) = false) : x ∈ t.entered :=
  (h x).1 (Bool.not_eq_eq_eq_not.1 hx)

end Trail

namespace FlowGraph

/-- The recursive depth-first search through a list of nodes, from one trail to another. -/
inductive Search (g : FlowGraph) : List BlockId → Trail → Trail → Prop where
  | nil (t : Trail) : Search g [] t t
  | skip {n : BlockId} {ns : List BlockId} {t u : Trail} :
      n ∈ t.entered → Search g ns t u → Search g (n :: ns) t u
  | enter {n : BlockId} {ns : List BlockId} {t u v : Trail} :
      n ∉ t.entered → Search g (g.successors n) (t.enter n) u → Search g ns (u.leave n) v →
        Search g (n :: ns) t v

def preorderStep (g : FlowGraph) (n : BlockId) (s : IndexSet × List BlockId) :
    List BlockId × IndexSet × List BlockId :=
  if s.1.contains n.index then ([], s)
  else (g.freshSuccessors (s.1.insert n.index) n, s.1.insert n.index, n :: s.2)

def postorderStep (g : FlowGraph) : Visit → IndexSet × List BlockId →
    List Visit × IndexSet × List BlockId
  | .leave n, s => ([], s.1, n :: s.2)
  | .enter n, s =>
    if s.1.contains n.index then ([], s)
    else ((g.freshSuccessors (s.1.insert n.index) n).map .enter ++ [.leave n],
      s.1.insert n.index, s.2)

variable {g : FlowGraph} {start n : BlockId} {ns stack : List BlockId} {t u v : Trail}
  {visited visited' visited'' : IndexSet}

theorem preorderLoop_cons (fuel : Nat) (stack : List BlockId) (s : IndexSet × List BlockId) :
    g.preorderLoop (fuel + 1) (n :: stack) s.1 s.2 =
      g.preorderLoop fuel ((g.preorderStep n s).1 ++ stack) (g.preorderStep n s).2.1
        (g.preorderStep n s).2.2 := by
  rw [preorderLoop, preorderStep]
  split <;> rfl

theorem postorderLoop_cons (fuel : Nat) (visit : Visit) (stack : List Visit)
    (s : IndexSet × List BlockId) :
    g.postorderLoop (fuel + 1) (visit :: stack) s.1 s.2 =
      g.postorderLoop fuel ((g.postorderStep visit s).1 ++ stack) (g.postorderStep visit s).2.1
        (g.postorderStep visit s).2.2 := by
  cases visit with
  | leave n => rfl
  | enter n =>
    rw [postorderLoop, postorderStep]
    split
    · rfl
    · simp only [List.append_assoc, List.singleton_append]

/-- With fuel for all pops the bounded walk is the walk to the empty stack. -/
theorem preorderLoop_eq {k fuel : Nat} {stack : List BlockId} {s s' : IndexSet × List BlockId}
    (h : Drains g.preorderStep k stack s s') (hfuel : k ≤ fuel) :
    g.preorderLoop fuel stack s.1 s.2 = s'.2 := by
  induction h generalizing fuel with
  | done => cases fuel <;> rfl
  | pop _ ih =>
    obtain ⟨fuel, rfl⟩ := Nat.exists_eq_succ_of_ne_zero (Nat.ne_of_gt (Nat.zero_lt_of_lt hfuel))
    rw [preorderLoop_cons]
    exact ih (Nat.le_of_succ_le_succ hfuel)

theorem postorderLoop_eq {k fuel : Nat} {stack : List Visit} {s s' : IndexSet × List BlockId}
    (h : Drains g.postorderStep k stack s s') (hfuel : k ≤ fuel) :
    g.postorderLoop fuel stack s.1 s.2 = s'.2 := by
  induction h generalizing fuel with
  | done => cases fuel <;> rfl
  | pop _ ih =>
    obtain ⟨fuel, rfl⟩ := Nat.exists_eq_succ_of_ne_zero (Nat.ne_of_gt (Nat.zero_lt_of_lt hfuel))
    rw [postorderLoop_cons]
    exact ih (Nat.le_of_succ_le_succ hfuel)

namespace Search

theorem unique (h : g.Search ns t u) (k : g.Search ns t v) : u = v := by
  induction h generalizing v with
  | nil => cases k; rfl
  | skip hn _ ih =>
    cases k with
    | skip _ hrest => exact ih hrest
    | enter hn' => exact absurd hn hn'
  | enter hn _ _ ihbelow ihrest =>
    cases k with
    | skip hn' => exact absurd hn' hn
    | enter _ hbelow hrest =>
      obtain rfl := ihbelow hbelow
      exact ihrest hrest

theorem entered_subset (h : g.Search ns t u) : t.entered ⊆ u.entered := by
  induction h with
  | nil => exact fun _ hx => hx
  | skip _ _ ih => exact ih
  | enter _ _ _ ihbelow ihrest =>
    exact fun x hx => ihrest (ihbelow (List.mem_append_left _ hx))

theorem perm (h : g.Search ns t u) : (u.entered ++ t.left).Perm (u.left ++ t.entered) := by
  rw [List.perm_iff_count]
  induction h with
  | nil => exact fun a => by simp only [List.count_append, Nat.add_comm]
  | skip _ _ ih => exact ih
  | enter _ _ _ ihbelow ihrest =>
    intro a
    have hbelow := ihbelow a
    have hrest := ihrest a
    simp only [Trail.enter, Trail.leave, List.count_append] at hbelow hrest ⊢
    omega

/-- The search comes to an end, as each node that it enters is one less to enter. -/
theorem exists_of_finite (below : ∀ n, ∀ s ∈ g.successors n, s.index < g.size) (ns : List BlockId)
    (hns : ∀ n ∈ ns, n = start ∨ n.index < g.size) (t : Trail) : ∃ u, g.Search ns t u := by
  obtain ⟨nodes, hnodes⟩ : ∃ nodes : Finset BlockId,
      ∀ n : BlockId, n = start ∨ n.index < g.size → n ∈ nodes := by
    refine ⟨insert start g.nodes.toFinset, fun n hn => ?_⟩
    rw [Finset.mem_insert, List.mem_toFinset, mem_nodes]
    exact hn
  induction hk : (nodes \ t.entered.toFinset).card using Nat.strong_induction_on
    generalizing ns t with
  | _ k ih =>
    subst hk
    -- Along the list the trail only grows, so one bound serves for all of its nodes.
    suffices hlist : ∀ t' : Trail, t.entered ⊆ t'.entered → ∃ u, g.Search ns t' u from
      hlist t (List.Subset.refl _)
    induction ns with
    | nil => exact fun t' _ => ⟨t', .nil t'⟩
    | cons n ns ihns =>
      intro t' ht'
      obtain ⟨hn, hns⟩ := List.forall_mem_cons.1 hns
      by_cases hentered : n ∈ t'.entered
      · obtain ⟨u, hu⟩ := ihns hns t' ht'
        exact ⟨u, .skip hentered hu⟩
      · have hless : (nodes \ (t'.enter n).entered.toFinset).card <
            (nodes \ t.entered.toFinset).card := by
          refine Finset.card_lt_card (Finset.ssubset_iff_of_subset ?_ |>.2 ⟨n, ?_, ?_⟩)
          · refine Finset.sdiff_subset_sdiff (Finset.Subset.refl _) fun x hx => ?_
            rw [List.mem_toFinset] at hx ⊢
            exact List.mem_append_left _ (ht' hx)
          · rw [Finset.mem_sdiff, List.mem_toFinset]
            exact ⟨hnodes n hn, fun hx => hentered (ht' hx)⟩
          · simp [Trail.enter]
        obtain ⟨u, hu⟩ := ih _ hless (g.successors n) (fun s hs => .inr (below n s hs)) _ rfl
        obtain ⟨v, hv⟩ := ihns hns (u.leave n) fun x hx =>
          hu.entered_subset (List.mem_append_left _ (ht' hx))
        exact ⟨v, .enter hentered hu hv⟩

end Search

/-- Both walks get from one trail to another when `stack` is on their stacks. An entered node costs
a preorder walk one pop for each of its edges, and a postorder walk two. -/
structure Walked (g : FlowGraph) (start : BlockId) (stack : List BlockId) (visited : IndexSet)
    (t : Trail) (visited' : IndexSet) (u : Trail) : Prop where
  marked : u.Marked visited'
  preorder : ∃ k, Drains g.preorderStep k stack (visited, t.entered.reverse)
      (visited', u.entered.reverse) ∧
    k + g.pendingEdges start u.entered.reverse ≤
      stack.length + g.pendingEdges start t.entered.reverse
  postorder : ∃ k, Drains g.postorderStep k (stack.map .enter) (visited, t.left.reverse)
      (visited', u.left.reverse) ∧
    k + 2 * g.pendingEdges start u.entered.reverse ≤
      2 * stack.length + 2 * g.pendingEdges start t.entered.reverse

namespace Walked

theorem done (start : BlockId) (h : t.Marked visited) : g.Walked start [] visited t visited t :=
  ⟨h, ⟨0, .done _, Nat.le_refl _⟩, ⟨0, .done _, Nat.le_refl _⟩⟩

/-- A node that was entered after it was pushed is popped without effect. -/
theorem skip (ht : t.Marked visited) (hn : n ∈ t.entered)
    (h : g.Walked start stack visited t visited' u) :
    g.Walked start (n :: stack) visited t visited' u := by
  obtain ⟨hmarked, ⟨j, hpre, hj⟩, k, hpost, hk⟩ := h
  refine ⟨hmarked, ⟨j + 1, .pop ?_, by rw [List.length_cons]; omega⟩,
    ⟨k + 1, .pop ?_, by rw [List.length_cons]; omega⟩⟩
  · rw [preorderStep, if_pos ((ht n).2 hn)]
    exact hpre
  · rw [postorderStep, if_pos ((ht n).2 hn)]
    exact hpost

/-- A new node puts its fresh successors on the stack, and after them, in a postorder walk, itself
to be left. -/
theorem enter (ht : t.Marked visited) (hin : n = start ∨ n.index < g.size) (hn : n ∉ t.entered)
    (hbelow : g.Walked start (g.freshSuccessors (visited.insert n.index) n)
      (visited.insert n.index) (t.enter n) visited' u)
    (hrest : g.Walked start stack visited' (u.leave n) visited'' v) :
    g.Walked start (n :: stack) visited t visited'' v := by
  obtain ⟨-, ⟨j₁, hpre₁, hj₁⟩, k₁, hpost₁, hk₁⟩ := hbelow
  obtain ⟨hmarked, ⟨j₂, hpre₂, hj₂⟩, k₂, hpost₂, hk₂⟩ := hrest
  have hnew : ¬ visited.contains n.index = true := fun h => hn ((ht n).1 h)
  have hentered : (t.enter n).entered.reverse = n :: t.entered.reverse := by simp [Trail.enter]
  have hleft : (u.leave n).left.reverse = n :: u.left.reverse := by simp [Trail.leave]
  have hsame : (u.leave n).entered = u.entered := rfl
  have hnotin : n ∉ t.entered.reverse := by simpa using hn
  have hpending := pendingEdges_cons hin hnotin
  have hfresh : (g.freshSuccessors (visited.insert n.index) n).length ≤ (g.successors n).length :=
    List.length_filter_le _ _
  rw [hentered] at hpre₁ hj₁ hk₁
  rw [hsame] at hpre₂ hj₂ hk₂
  rw [hleft] at hpost₂
  refine ⟨hmarked, ⟨j₁ + j₂ + 1, .pop ?_, by rw [List.length_cons]; omega⟩,
    ⟨k₁ + (0 + k₂ + 1) + 1, .pop ?_, by rw [List.length_cons]; omega⟩⟩
  · rw [preorderStep, if_neg hnew]
    exact hpre₁.append hpre₂
  · have hleave : Drains g.postorderStep (0 + k₂ + 1) (.leave n :: stack.map .enter)
        (visited', u.left.reverse) (visited'', v.left.reverse) :=
      .pop ((Drains.done _).append hpost₂)
    rw [postorderStep, if_neg hnew, List.append_assoc]
    exact hpost₁.append hleave

theorem preorder_eq (h : g.Walked start [start] (.withCapacity g.size) {} visited u) :
    g.preorder start = u.entered := by
  obtain ⟨k, hrun, hk⟩ := h.preorder
  have hbound : g.pendingEdges start ([] : List BlockId).reverse = g.edgeBound start :=
    pendingEdges_nil g start
  rw [List.length_singleton, hbound] at hk
  have hfuel : k ≤ g.edgeBound start + 2 := by omega
  exact List.reverse_eq_iff.2 (preorderLoop_eq hrun hfuel)

theorem postorder_eq (h : g.Walked start [start] (.withCapacity g.size) {} visited u) :
    g.postorder start = u.left := by
  obtain ⟨k, hrun, hk⟩ := h.postorder
  have hbound : g.pendingEdges start ([] : List BlockId).reverse = g.edgeBound start :=
    pendingEdges_nil g start
  rw [List.length_singleton, hbound] at hk
  have hfuel : k ≤ 2 * g.edgeBound start + 4 := by omega
  exact List.reverse_eq_iff.2 (postorderLoop_eq hrun hfuel)

end Walked

/-- The walks follow the search. Of the nodes to search, those that `keep` rejects are not on the
stack, as they have been entered before. -/
theorem Search.walked (below : ∀ n, ∀ s ∈ g.successors n, s.index < g.size)
    (h : g.Search ns t u) (hns : ∀ n ∈ ns, n = start ∨ n.index < g.size)
    (ht : t.Marked visited) (keep : BlockId → Bool) (hkeep : ∀ x, keep x = false → x ∈ t.entered) :
    ∃ visited', g.Walked start (ns.filter keep) visited t visited' u := by
  induction h generalizing visited keep with
  | nil t => exact ⟨visited, .done start ht⟩
  | @skip n ns t u hn _ ih =>
    obtain ⟨-, hns⟩ := List.forall_mem_cons.1 hns
    obtain ⟨visited', hrest⟩ := ih hns ht keep hkeep
    refine ⟨visited', ?_⟩
    cases hkn : keep n with
    | false => rwa [List.filter_cons_of_neg (by simp [hkn])]
    | true =>
      rw [List.filter_cons_of_pos hkn]
      exact hrest.skip ht hn
  | @enter n ns t u v hn hsearch _ ihbelow ihrest =>
    obtain ⟨hin, hns⟩ := List.forall_mem_cons.1 hns
    obtain ⟨visited', hbelow⟩ := ihbelow (fun s hs => .inr (below n s hs)) (ht.insert n)
      (fun s => !(visited.insert n.index).contains s.index) fun x hx => (ht.insert n).mem hx
    have hgrown : t.entered ⊆ u.entered := fun x hx =>
      hsearch.entered_subset (List.mem_append_left _ hx)
    obtain ⟨visited'', hrest⟩ := ihrest hns hbelow.marked keep fun x hx => hgrown (hkeep x hx)
    have hkn : keep n = true := by
      by_contra hno
      exact hn (hkeep n ((Bool.not_eq_true _).mp hno))
    rw [List.filter_cons_of_pos hkn]
    exact ⟨visited'', hbelow.enter ht hin hn hrest⟩

/-- Both walks end with an empty stack, and what they list is what the recursive search from `start`
lists. Each order has every node that `start` reaches, and has it once; in preorder each node but
the first comes after one of its predecessors. -/
theorem orders_eq_recursive_search (g : FlowGraph)
    (below : ∀ n, ∀ s ∈ g.successors n, s.index < g.size) (start : BlockId) :
    (∃ k visited, Drains g.preorderStep k [start] (.withCapacity g.size, [])
      (visited, (g.preorder start).reverse)) ∧
    (∃ k visited, Drains g.postorderStep k [.enter start] (.withCapacity g.size, [])
      (visited, (g.postorder start).reverse)) ∧
    (∀ t, g.Search [start] {} t ↔ t = ⟨g.preorder start, g.postorder start⟩) ∧
    (∀ order ∈ [g.preorder start, g.postorder start],
      order.Nodup ∧ ∀ n, n ∈ order ↔ g.Reaches start n) ∧
    ∀ pre n post, g.preorder start = pre ++ n :: post → pre ≠ [] →
      ∃ p ∈ pre, n ∈ g.successors p := by
  have hstart : ∀ n ∈ [start], n = start ∨ n.index < g.size := fun n hn =>
    .inl (List.mem_singleton.1 hn)
  obtain ⟨u, hu⟩ := Search.exists_of_finite below [start] hstart {}
  have hmarked : Trail.Marked {} (.withCapacity g.size) := fun x => by simp
  obtain ⟨visited, hwalked⟩ := hu.walked below hstart hmarked (fun _ => true) fun _ hx => nomatch hx
  have hpreorder := hwalked.preorder_eq
  have hpostorder := hwalked.postorder_eq
  have hperm : (g.preorder start).Perm (g.postorder start) := by
    rw [hpreorder, hpostorder]
    simpa using hu.perm
  obtain ⟨-, ⟨j, hpre, -⟩, k, hpost, -⟩ := hwalked
  refine ⟨⟨j, visited, hpreorder ▸ hpre⟩, ⟨k, visited, hpostorder ▸ hpost⟩, fun t => ?_, ?_,
    fun pre n post => preorder_exists_pred below⟩
  · rw [hpreorder, hpostorder]
    exact ⟨fun ht => ht.unique hu, fun ht => ht ▸ hu⟩
  · have hlists := And.intro (preorder_nodup below start) (mem_preorder below start)
    refine List.forall_mem_cons.2 ⟨hlists, List.forall_mem_singleton.2 ?_⟩
    exact ⟨hperm.nodup_iff.1 hlists.1, fun n => hperm.mem_iff.symm.trans (hlists.2 n)⟩

/-- A branch whose arms lead to one another, with an edge given twice, a node that loops on its own,
an edge back to the start, and a node that nothing leads to. -/
def crossedArms : FlowGraph :=
  ofEdges 5 [(⟨0⟩, ⟨1⟩), (⟨0⟩, ⟨2⟩), (⟨0⟩, ⟨1⟩), (⟨1⟩, ⟨1⟩), (⟨1⟩, ⟨2⟩), (⟨2⟩, ⟨1⟩), (⟨2⟩, ⟨3⟩),
    (⟨3⟩, ⟨0⟩), (⟨4⟩, ⟨0⟩)]

theorem crossedArms_orders :
    (∀ n, ∀ s ∈ crossedArms.successors n, s.index < crossedArms.size) ∧
    crossedArms.preorder ⟨0⟩ = [⟨0⟩, ⟨1⟩, ⟨2⟩, ⟨3⟩] ∧
    crossedArms.postorder ⟨0⟩ = [⟨3⟩, ⟨2⟩, ⟨1⟩, ⟨0⟩] ∧
    crossedArms.Search [⟨0⟩] {} ⟨[⟨0⟩, ⟨1⟩, ⟨2⟩, ⟨3⟩], [⟨3⟩, ⟨2⟩, ⟨1⟩, ⟨0⟩]⟩ := by
  have hbelow : ∀ n, ∀ s ∈ crossedArms.successors n, s.index < crossedArms.size :=
    (ofEdges_consistent (by decide)).below
  have hpre : crossedArms.preorder ⟨0⟩ = [⟨0⟩, ⟨1⟩, ⟨2⟩, ⟨3⟩] := by decide +kernel
  have hpost : crossedArms.postorder ⟨0⟩ = [⟨3⟩, ⟨2⟩, ⟨1⟩, ⟨0⟩] := by decide +kernel
  have hsearch := (orders_eq_recursive_search crossedArms hbelow ⟨0⟩).2.2.1
    ⟨[⟨0⟩, ⟨1⟩, ⟨2⟩, ⟨3⟩], [⟨3⟩, ⟨2⟩, ⟨1⟩, ⟨0⟩]⟩
  exact ⟨hbelow, hpre, hpost, hsearch.2 (by rw [hpre, hpost])⟩

end FlowGraph

end Midend
