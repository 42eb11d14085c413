import Midend.Proofs.ControlTree.Groups
import Midend.Proofs.Edit.Built

namespace Midend

variable {f : Func} {dom : Dominance}

theorem Func.walk_cached (f : Func) (dom : Dominance) (oracle : Oracle) (n : Nat) :
    Func.walk { f with dominance := some dom } oracle n = f.walk oracle n := by
  induction n with
  | zero => rfl
  | succ n ih =>
    rw [walk, walk, ih]
    rfl

theorem Dominance.IsOf.cached (h : dom.IsOf f) : dom.IsOf { f with dominance := some dom } :=
  ⟨h.graph, h.entry, h.tree, h.frontiers⟩

theorem Edit.controlTree_eq_ok {t : ControlTree} (hf : f.Sound)
    (h : (controlTree.apply f).1 = .ok t) :
    ∃ dom, f.computeDominance f.dominanceLimit = .ok dom ∧
      ControlTree.ofFunc { f with dominance := some dom } dom = .ok t := by
  unfold controlTree at h
  rw [apply_bind] at h
  rcases dominance_yields hf.coherent with ⟨e, he⟩ | ⟨dom, g, hg, hcompute, rfl⟩
  · rw [he] at h
    cases h
  · rw [hg] at h
    exact ⟨dom, hcompute, h⟩

/-- A control tree has the traces of the function that it was built from, for every oracle: each
prefix of one walk is a prefix of the other, and one ends if and only if the other does. The
condition of each branch of the tree is the first operand of the terminator of its block. -/
theorem ControlTree.same_traces (f : Func) (hf : f.Built) (t : ControlTree)
    (h : (Edit.controlTree.apply f).1 = .ok t) :
    (∀ oracle : Oracle,
      (∀ n, ∃ m, (t.walk oracle m).visited = (f.walk oracle n).visited) ∧
      (∀ m, ∃ n, (f.walk oracle n).visited = (t.walk oracle m).visited) ∧
      ((∃ n, (f.walk oracle n).next = none) ↔ ∃ m, (t.walk oracle m).left = [])) ∧
    ∀ g ∈ t.groups, ∀ x ∈ g.body.conditions, f.Decides x := by
  obtain ⟨dom, hdom, hbuild⟩ := Edit.controlTree_eq_ok hf.sound h
  have hcoherent : Func.Coherent { f with dominance := some dom } := by
    intro d hd
    cases hd
    exact hdom
  have hsound : Func.Sound { f with dominance := some dom } :=
    hf.sound.of_fields rfl rfl rfl rfl rfl rfl hcoherent
  obtain ⟨⟨entry, hfollows⟩, hdecides⟩ :=
    ofFunc_follows hsound (Func.computeDominance_isOf hdom).cached hbuild
  refine ⟨fun oracle => ?_, hdecides⟩
  have hwalk := hfollows.same_walk oracle
  simp only [Func.walk_cached] at hwalk
  exact hwalk

/-- A loop around a branch whose arms meet: the second choice goes back or leaves. -/
def diamondLoop : List Call :=
  [.addArgument, .addBlock, .addBlock, .addBlock, .addBlock,
    .append ⟨0⟩ (.condBranch ⟨1⟩ ⟨2⟩) [⟨0⟩], .append ⟨1⟩ (.branch ⟨3⟩) [],
    .append ⟨2⟩ (.branch ⟨3⟩) [], .append ⟨3⟩ (.condBranch ⟨0⟩ ⟨4⟩) [⟨0⟩], .append ⟨4⟩ .ret []]

theorem ControlTree.diamondLoop_same_traces :
    ∃ f t, f.Built ∧ (Edit.controlTree.apply f).1 = .ok t ∧ t.hasBranches = true ∧
      t.loopHeads = [root] ∧ (f.walk (fun _ => true) 7).visited.length = 7 ∧
      ∃ m, (t.walk (fun _ => true) m).visited = (f.walk (fun _ => true) 7).visited := by
  let f : Func := diamondLoop.foldl (fun f c => c.run f) (Func.new "f")
  have hf : f.Built := ⟨"f", diamondLoop, rfl⟩
  have hrun : (((Edit.controlTree.apply f).1.toOption.map fun t => (t.hasBranches, t.loopHeads)) =
      some (true, [root])) := by decide +kernel
  have hlength : (f.walk (fun _ => true) 7).visited.length = 7 := by decide +kernel
  cases ht : (Edit.controlTree.apply f).1 with
  | error e =>
    rw [ht] at hrun
    cases hrun
  | ok t =>
    rw [ht] at hrun
    obtain ⟨hbranch, hheads⟩ := Prod.mk.inj (Option.some.inj hrun)
    exact ⟨f, t, hf, ht, hbranch, hheads, hlength,
      ((same_traces f hf t ht).1 fun _ => true).1 7⟩

end Midend
