import Mathlib.Logic.Function.Iterate
import Midend.Proofs.ControlTree.Walk

namespace Midend

open Func (Continuation)

def goOn : Option BlockId → Continuation
  | none => .leave
  | some b => .next b

namespace Region

/-- What comes next from the start of a region, where `behind` comes after its end and jumps go to
the blocks in `entry`. -/
def Leads (f : Func) (entry : BlockId → Prop) :
    Region → Option BlockId → Continuation → Prop
  | done, behind, c => c = goOn behind
  | block b rest, behind, c =>
    c = .next b ∧ ∃ after, f.continuation b = .ok after ∧ Leads f entry rest behind after
  | branch b condition ifTrue ifFalse rest, behind, c => ∃ t e join,
    c = .choose condition t e ∧ f.continuation b = .ok c ∧ Leads f entry ifTrue join (.next t) ∧
      Leads f entry ifFalse join (.next e) ∧ Leads f entry rest behind (goOn join)
  | jump j _, _, c => c = .next j.target ∧ entry j.target

variable {f : Func} {entry : BlockId → Prop} {r : Region} {behind : Option BlockId}
  {c : Continuation}

theorem Leads.endWith {j : Jump} (hj : entry j.target) (other : Option BlockId)
    (h : r.Leads f entry (some j.target) c) : (r.endWith j).Leads f entry other c := by
  induction r generalizing c with
  | done => exact ⟨h, hj⟩
  | block b rest ih =>
    obtain ⟨hc, after, hafter, hrest⟩ := h
    exact ⟨hc, after, hafter, ih hrest⟩
  | branch b condition ifTrue ifFalse rest _ _ ih =>
    obtain ⟨t, e, join, hc, hcont, ht, he, hrest⟩ := h
    exact ⟨t, e, join, hc, hcont, ht, he, ih hrest⟩
  | jump i rest _ => exact h

theorem Leads.mapJumps {u : Jump → Jump} (hu : ∀ j, (u j).target = j.target)
    (h : r.Leads f entry behind c) : (r.mapJumps u).Leads f entry behind c := by
  induction r generalizing behind c with
  | done => exact h
  | block b rest ih =>
    obtain ⟨hc, after, hafter, hrest⟩ := h
    exact ⟨hc, after, hafter, ih hrest⟩
  | branch b condition ifTrue ifFalse rest iht ihe ih =>
    obtain ⟨t, e, join, hc, hcont, ht, he, hrest⟩ := h
    exact ⟨t, e, join, hc, hcont, iht ht, ihe he, ih hrest⟩
  | jump j rest _ =>
    obtain ⟨hc, hj⟩ := h
    have ht := hu j
    exact ⟨by rw [ht]; exact hc, by rw [ht]; exact hj⟩

@[simp]
theorem conditions_endWith (j : Jump) (r : Region) : (r.endWith j).conditions = r.conditions := by
  induction r with
  | done => rfl
  | block b rest ih => exact ih
  | branch b condition t e rest _ _ ih => simp only [Region.endWith, conditions, ih]
  | jump i rest ih => exact ih

@[simp]
theorem conditions_mapJumps (u : Jump → Jump) (r : Region) :
    (r.mapJumps u).conditions = r.conditions := by
  induction r with
  | done => rfl
  | block b rest ih => exact ih
  | branch b condition t e rest iht ihe ih => simp only [Region.mapJumps, conditions, iht, ihe, ih]
  | jump i rest ih => exact ih

def nodes : Region → Nat
  | done => 1
  | block _ rest | jump _ rest => rest.nodes + 1
  | branch _ _ t e rest => t.nodes + e.nodes + rest.nodes + 1

end Region

/-- What comes next from a list of regions, each inside the ones after it. -/
def LeadsOn (f : Func) (entry : BlockId → Prop) : List Region → Continuation → Prop
  | [], c => c = .leave
  | r :: outer, c => ∃ behind, r.Leads f entry behind c ∧ LeadsOn f entry outer (goOn behind)

/-- The bodies of a tree lead on as the terminators do: the root group starts at the entry, and each
group that is entered at a block starts with that block and ends by leaving. -/
structure ControlTree.Follows (t : ControlTree) (f : Func) (entry : BlockId → Prop) : Prop where
  root : t.group? ControlTree.root = (t.groupOf f.entry).bind t.group?
  start : entry f.entry
  body : ∀ b, entry b → ∃ rest, t.bodyAt b = some (.block b rest) ∧
    (Region.block b rest).Leads f entry none (.next b)

namespace ControlTree

variable {f : Func} {entry : BlockId → Prop} {t : ControlTree} {oracle : Oracle}

/-- The walk of the tree has visited the same blocks, and what is left leads to the same next
block. -/
def Matches (f : Func) (entry : BlockId → Prop) (oracle : Oracle) (w : TreeWalk) (v : BlockWalk) :
    Prop :=
  w.visited = v.visited ∧
    ∃ c, LeadsOn f entry w.left c ∧ v.next = c.resolve (oracle v.visited)

/-- A walk that is about to visit a block or has nothing left. -/
def Settled (w : TreeWalk) : Prop := w.left = [] ∨ ∃ b rest outer, w.left = .block b rest :: outer

def nodesOf (left : List Region) : Nat := left.foldr (fun r n => r.nodes + n) 0

theorem Matches.visit {w : TreeWalk} {v : BlockWalk} (h : Matches f entry oracle w v) {b : BlockId}
    {rest : Region} {outer : List Region} (hleft : w.left = .block b rest :: outer) :
    Matches f entry oracle (t.walkStep oracle w) (f.walkStep oracle v) := by
  obtain ⟨hvisited, c, hleads, hnext⟩ := h
  rw [hleft] at hleads
  obtain ⟨behind, ⟨rfl, after, hafter, hrest⟩, houter⟩ := hleads
  have hb : v.next = some b := hnext
  simp only [walkStep, hleft, Func.walkStep, hb]
  exact ⟨by rw [hvisited], after, ⟨behind, hrest, houter⟩, Func.nextBlock_eq hafter oracle _⟩

/-- Any other node is no step of the blocks, and either the next one visits a block or less is
left. -/
theorem Matches.pass (ht : t.Follows f entry) {w : TreeWalk} {v : BlockWalk}
    (h : Matches f entry oracle w v) (hw : ¬ Settled w) :
    Matches f entry oracle (t.walkStep oracle w) v ∧
      (Settled (t.walkStep oracle w) ∨
        nodesOf (t.walkStep oracle w).left < nodesOf w.left) := by
  obtain ⟨hvisited, c, hleads, hnext⟩ := h
  unfold walkStep
  split
  · exact absurd (.inl ‹_›) hw
  · rename_i outer hleft
    rw [hleft] at hleads ⊢
    obtain ⟨behind, rfl, houter⟩ := hleads
    refine ⟨⟨hvisited, _, houter, hnext⟩, .inr ?_⟩
    simp [nodesOf, Region.nodes]
  · rename_i b rest outer hleft
    exact absurd (.inr ⟨b, rest, outer, hleft⟩) hw
  · rename_i b condition ifTrue ifFalse rest outer hleft
    rw [hleft] at hleads ⊢
    obtain ⟨behind, ⟨t, e, join, rfl, -, htrue, hfalse, hrest⟩, houter⟩ := hleads
    rw [hvisited]
    cases ho : oracle v.visited with
    | true =>
      refine ⟨⟨rfl, .next t, ⟨join, htrue, behind, hrest, houter⟩, ?_⟩, .inr ?_⟩
      · rw [hnext, ho]
        rfl
      · simp only [nodesOf, Region.nodes, List.foldr_cons, if_true]
        omega
    | false =>
      refine ⟨⟨rfl, .next e, ⟨join, hfalse, behind, hrest, houter⟩, ?_⟩, .inr ?_⟩
      · rw [hnext, ho]
        rfl
      · simp only [nodesOf, Region.nodes, List.foldr_cons, Bool.false_eq_true, if_false]
        omega
  · -- A jump starts over at a body, which begins with a block.
    rename_i j rest outer hleft
    rw [hleft] at hleads
    obtain ⟨behind, ⟨rfl, hj⟩, -⟩ := hleads
    obtain ⟨rest', hbody, hlead⟩ := ht.body j.target hj
    rw [hbody]
    exact ⟨⟨hvisited, .next j.target, ⟨none, hlead, rfl⟩, hnext⟩,
      .inl (.inr ⟨j.target, rest', [], rfl⟩)⟩

/-- After finitely many nodes a walk is settled, and no block was visited on the way. -/
theorem Matches.settle (ht : t.Follows f entry) {w : TreeWalk} {v : BlockWalk}
    (h : Matches f entry oracle w v) :
    ∃ k, Matches f entry oracle ((t.walkStep oracle)^[k] w) v ∧
      Settled ((t.walkStep oracle)^[k] w) := by
  induction hn : nodesOf w.left using Nat.strongRecOn generalizing w with
  | ind n ih =>
    subst hn
    by_cases hw : Settled w
    · exact ⟨0, h, hw⟩
    · obtain ⟨hm, hs | hlt⟩ := h.pass ht hw
      · exact ⟨1, hm, hs⟩
      · obtain ⟨k, hk⟩ := ih _ hlt hm rfl
        exact ⟨k + 1, by rw [Function.iterate_succ_apply]; exact hk⟩

theorem walk_add (t : ControlTree) (oracle : Oracle) (n k : Nat) :
    t.walk oracle (n + k) = (t.walkStep oracle)^[k] (t.walk oracle n) := by
  induction k with
  | zero => rfl
  | succ k ih =>
    rw [Function.iterate_succ_apply', ← ih]
    rfl

theorem matches_start (ht : t.Follows f entry) (oracle : Oracle) :
    Matches f entry oracle (t.walk oracle 0) (f.walk oracle 0) := by
  obtain ⟨rest, hbody, hlead⟩ := ht.body f.entry ht.start
  have hroot : (t.group? root).map (·.body) = some (.block f.entry rest) := by
    rw [ht.root]
    exact hbody
  refine ⟨rfl, .next f.entry, ?_, rfl⟩
  rw [walk, hroot]
  exact ⟨none, hlead, rfl⟩

theorem exists_tree_walk (ht : t.Follows f entry) (oracle : Oracle) (n : Nat) :
    ∃ m, Matches f entry oracle (t.walk oracle m) (f.walk oracle n) ∧
      Settled (t.walk oracle m) := by
  induction n with
  | zero =>
    obtain ⟨k, hk⟩ := (matches_start ht oracle).settle ht
    exact ⟨0 + k, by rw [walk_add]; exact hk⟩
  | succ n ih =>
    obtain ⟨m, hm, hs⟩ := ih
    have hstep : ∃ m', Matches f entry oracle (t.walk oracle m') (f.walk oracle (n + 1)) := by
      rcases hs with hnil | ⟨b, rest, outer, hleft⟩
      · obtain ⟨hvisited, c, hleads, hnext⟩ := hm
        rw [hnil] at hleads
        obtain rfl := hleads
        refine ⟨m, ?_⟩
        have hstay : f.walk oracle (n + 1) = f.walk oracle n := by
          have hnone : (f.walk oracle n).next = none := hnext
          simp only [Func.walk, Func.walkStep, hnone]
        rw [hstay]
        exact ⟨hvisited, .leave, by rw [hnil]; rfl, hnext⟩
      · exact ⟨m + 1, hm.visit hleft⟩
    obtain ⟨m', hm'⟩ := hstep
    obtain ⟨k, hk⟩ := hm'.settle ht
    exact ⟨m' + k, by rw [walk_add]; exact hk⟩

theorem exists_block_walk (ht : t.Follows f entry) (oracle : Oracle) (m : Nat) :
    ∃ n, Matches f entry oracle (t.walk oracle m) (f.walk oracle n) := by
  induction m with
  | zero => exact ⟨0, matches_start ht oracle⟩
  | succ m ih =>
    obtain ⟨n, hn⟩ := ih
    by_cases hs : Settled (t.walk oracle m)
    · rcases hs with hnil | ⟨b, rest, outer, hleft⟩
      · refine ⟨n, ?_⟩
        have hstay : t.walk oracle (m + 1) = t.walk oracle m := by
          simp only [walk, walkStep, hnil]
        rw [hstay]
        exact hn
      · exact ⟨n + 1, hn.visit hleft⟩
    · exact ⟨n, (hn.pass ht hs).1⟩

/-- A tree that follows the terminators visits the blocks that they do, in the same order, and ends
if and only if they leave the function. -/
theorem Follows.same_walk (ht : t.Follows f entry) (oracle : Oracle) :
    (∀ n, ∃ m, (t.walk oracle m).visited = (f.walk oracle n).visited) ∧
      (∀ m, ∃ n, (f.walk oracle n).visited = (t.walk oracle m).visited) ∧
      ((∃ n, (f.walk oracle n).next = none) ↔ ∃ m, (t.walk oracle m).left = []) := by
  refine ⟨fun n => ?_, fun m => ?_, ⟨fun ⟨n, hn⟩ => ?_, fun ⟨m, hm⟩ => ?_⟩⟩
  · obtain ⟨m, hm, -⟩ := exists_tree_walk ht oracle n
    exact ⟨m, hm.1⟩
  · obtain ⟨n, hn⟩ := exists_block_walk ht oracle m
    exact ⟨n, hn.1.symm⟩
  · obtain ⟨m, ⟨-, c, hleads, hnext⟩, hnil | ⟨b, rest, outer, hleft⟩⟩ :=
      exists_tree_walk ht oracle n
    · exact ⟨m, hnil⟩
    · rw [hleft] at hleads
      obtain ⟨-, ⟨rfl, -⟩, -⟩ := hleads
      rw [hn] at hnext
      cases hnext
  · obtain ⟨n, -, c, hleads, hnext⟩ := exists_block_walk ht oracle m
    rw [hm] at hleads
    obtain rfl := hleads
    exact ⟨n, hnext⟩

end ControlTree

end Midend
