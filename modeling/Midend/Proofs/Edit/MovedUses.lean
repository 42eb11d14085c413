import Mathlib.Algebra.BigOperators.Group.Finset.Basic
import Midend.Proofs.Arena
import Midend.Proofs.Edit.Built
import Midend.Proofs.Edit.Ensures
import Midend.Proofs.Edit.Keeps

namespace Midend

namespace Value

theorem Counted.get?_eq {v : Value} (h : v.Counted) (u : User) :
    v.uses.get? u = if v.usesBy u = 0 then none else some (v.usesBy u) := by
  have hc := h u
  rw [usesBy]
  cases hg : v.uses.get? u with
  | none => rfl
  | some n =>
    have hn : n ≠ 0 := fun h0 => hc (by rw [hg, h0])
    rw [Option.getD_some, if_neg hn]

/-- A value is determined by its kind, its definition and the counts of its users. -/
theorem eq_of_usesBy {v w : Value} (hv : v.Counted) (hw : w.Counted) (hshape : v.shape = w.shape)
    (h : ∀ u, v.usesBy u = w.usesBy u) : v = w := by
  have huses : v.uses.toList = w.uses.toList :=
    OrderedMap.toList_eq_of_get? fun u => by rw [hv.get?_eq, hw.get?_eq, h]
  obtain ⟨hkind, hdef, -⟩ := Value.mk.inj hshape
  exact Value.ext hkind hdef (OrderedMap.ext huses)

theorem useCount_eq (v : Value) : v.useCount = (v.users.map (·.2)).sum := rfl

end Value

namespace Func

variable {f g : Func} {old new v : ValueId}

def consumers (f : Func) : List User := f.insts.live.map .inst ++ f.phis.live.map .phi

def slotsOf (f : Func) : User → List ValueId
  | .inst i => ((f.insts.get? i).map (·.operands)).getD []
  | .phi p => ((f.phis.get? p).map (·.sources.values)).getD []

def slots (f : Func) : List ValueId := f.consumers.flatMap f.slotsOf

theorem count_slotsOf (f : Func) (v : ValueId) (u : User) : (f.slotsOf u).count v = f.held v u := by
  cases u with
  | inst i =>
    rw [slotsOf, held_inst]
    cases f.insts.get? i <;> rfl
  | phi p =>
    rw [slotsOf, held_phi]
    cases f.phis.get? p <;> rfl

theorem nodup_consumers (f : Func) : f.consumers.Nodup := by
  refine List.nodup_append.2 ⟨f.insts.nodup_live.map fun _ _ => User.inst.inj,
    f.phis.nodup_live.map fun _ _ => User.phi.inj, ?_⟩
  simp

theorem mem_consumers_of_held {u : User} (h : f.held v u ≠ 0) : u ∈ f.consumers := by
  rw [consumers, List.mem_append]
  cases u with
  | inst i =>
    refine .inl (List.mem_map_of_mem (Arena.mem_live.2 ?_))
    rw [held_inst] at h
    cases hi : f.insts.get? i with
    | none => simp [hi] at h
    | some inst => simp [Arena.contains, hi]
  | phi p =>
    refine .inr (List.mem_map_of_mem (Arena.mem_live.2 ?_))
    rw [held_phi] at h
    cases hp : f.phis.get? p with
    | none => simp [hp] at h
    | some phi => simp [Arena.contains, hp]

/-- The uses of a value are the slots that hold it. -/
theorem UsesAgree.useCount_eq (h : f.UsesAgree) {val : Value} (hv : f.values.get? v = some val) :
    val.useCount = f.slots.count v := by
  have hlisted : (val.users.map (·.1)).Nodup := OrderedMap.keys_nodup val.uses
  have hmem : ∀ e, e ∈ val.users ↔ val.usesBy e.1 = e.2 ∧ 0 < e.2 := fun e =>
    Value.mem_users_iff (h.counted v val hv)
  have hcounts : val.users.map (·.2) = (val.users.map (·.1)).map (f.held v) := by
    rw [List.map_map]
    refine List.map_congr_left fun e he => ?_
    rw [Function.comp_apply, ← h.uses v val e.1 hv, ((hmem e).1 he).1]
  calc val.useCount
      = ((val.users.map (·.1)).map (f.held v)).sum := by rw [Value.useCount_eq, hcounts]
    _ = ∑ u ∈ (val.users.map (·.1)).toFinset, f.held v u := (List.sum_toFinset _ hlisted).symm
    _ = ∑ u ∈ f.consumers.toFinset, f.held v u := by
        refine Finset.sum_subset ?_ ?_
        · intro u hu
          obtain ⟨e, he, rfl⟩ := List.mem_map.1 (List.mem_toFinset.1 hu)
          obtain ⟨huse, hpos⟩ := (hmem e).1 he
          refine List.mem_toFinset.2 (mem_consumers_of_held (v := v) ?_)
          rw [← h.uses v val e.1 hv, huse]
          exact Nat.pos_iff_ne_zero.1 hpos
        · intro u _ hu
          -- A user that the list does not name holds nothing of the value.
          by_contra hne
          rw [← h.uses v val u hv] at hne
          refine hu (List.mem_toFinset.2 (List.mem_map.2 ⟨(u, val.usesBy u), ?_, rfl⟩))
          exact (hmem _).2 ⟨rfl, Nat.pos_of_ne_zero hne⟩
    _ = (f.consumers.map (f.held v)).sum := List.sum_toFinset _ f.nodup_consumers
    _ = f.slots.count v := by
        rw [slots, List.count_flatMap]
        exact congrArg List.sum (List.map_congr_left fun u _ => (f.count_slotsOf v u).symm)

theorem Replaced.get?_value (hr : Replaced old new f g) (h : f.UsesAgree) (hne : old ≠ new)
    {val : Value} (hv : f.values.get? v = some val) :
    ∃ val', g.values.get? v = some val' ∧ val'.Counted ∧ val'.shape = val.shape ∧
      ∀ u, val'.usesBy u =
        if v = old then 0 else val.usesBy u + if v = new then f.held old u else 0 := by
  have hshape := hr.shape.value v
  rw [hv] at hshape
  obtain ⟨val', hval', heq⟩ := Option.map_eq_some_iff.1 hshape
  refine ⟨val', hval', hr.uses.counted v val' hval', heq, fun u => ?_⟩
  rw [hr.uses.uses v val' u hval', hr.held_eq hne, h.uses v val u hv]

end Func

namespace Edit

open Func

/-- What replacement can change: three tables, which keep their size. -/
def Rewired (f g : Func) : Prop :=
  g = { f with insts := g.insts, phis := g.phis, values := g.values } ∧
    g.insts.size = f.insts.size ∧ g.phis.size = f.phis.size

theorem replaceIn_keeps (f : Func) (old new : ValueId) (user : User) (count : Nat) :
    (replaceIn old new user count).Keeps (Rewired f) := by
  have hmove : (modify fun g : Func => (g.modifyValue old (·.dropUses user)).modifyValue new
      (·.addUses user count) : Edit PUnit).Keeps (Rewired f) := by
    refine .modify ?_
    rintro g ⟨hg, hinsts, hphis⟩
    exact ⟨by rw [hg]; rfl, hinsts, hphis⟩
  cases user with
  | inst i =>
    refine .bind (.query _) fun _ => .bind (.modify ?_) fun _ => .bind (.pure _) fun _ =>
      .bind hmove fun _ => .pure _
    rintro g ⟨hg, hinsts, hphis⟩
    exact ⟨by rw [hg], by rw [Arena.size_modify, hinsts], hphis⟩
  | phi p =>
    refine .bind (.query _) fun _ => .bind (.modify ?_) fun _ => .bind (.pure _) fun _ =>
      .bind hmove fun _ => .pure _
    rintro g ⟨hg, hinsts, hphis⟩
    exact ⟨by rw [hg], hinsts, by rw [Arena.size_modify, hphis]⟩

theorem replaceAllUses_keeps (f : Func) (old new : ValueId) :
    (replaceAllUses old new).Keeps (Rewired f) := by
  unfold replaceAllUses
  split
  · exact .pure 0
  · exact .bind (.query _) fun _ => .bind (.query _) fun _ =>
      .foldlM (fun _ _ => .bind (replaceIn_keeps f old new _ _) fun _ => .pure _) _ _

/-- Replacement moves all uses of a value and nothing else: it returns the number of slots that held
the value, which is its use count, and these slots hold the other value, whose counts grow by those
that were moved. -/
theorem replaceAllUses_moves_uses {f : Func} (hf : f.Built) {old new : ValueId} {a b : Value}
    (hold : f.values.get? old = some a) (hnew : f.values.get? new = some b) (hne : old ≠ new) :
    ∃ g, (replaceAllUses old new).apply f = (.ok (f.slots.count old), g) ∧
      f.slots.count old = a.useCount ∧
      g = { f with
        insts := f.insts.map fun x => { x with operands := x.operands.map (swap old new) }
        phis := f.phis.map fun x => { x with sources := x.sources.mapValues (swap old new) }
        values := g.values } ∧
      g.values.get? old = some { a with uses := ∅ } ∧
      (∃ b', g.values.get? new = some b' ∧ b'.kind = b.kind ∧ b'.definition = b.definition ∧
        ∀ u, b'.usesBy u = a.usesBy u + b.usesBy u) ∧
      ∀ v, v ≠ old → v ≠ new → g.values.get? v = f.values.get? v := by
  have huses := hf.sound.uses
  obtain ⟨g, hrun, hr⟩ := replaceAllUses_apply_of_ne huses hne hnew hold
  -- Everything but the three tables stays; the tables are compared entry by entry.
  have hkept := replaceAllUses_keeps f old new f ⟨rfl, rfl, rfl⟩
  rw [hrun] at hkept
  obtain ⟨hg, hinsts, hphis⟩ := hkept
  have hcount := huses.useCount_eq hold
  refine ⟨g, hcount ▸ hrun, hcount.symm, ?_, ?_, ?_, ?_⟩
  · have hi : g.insts = f.insts.map (·.replace old new) :=
      Arena.ext_get? (by rw [Arena.size_map, hinsts]) fun i => by rw [hr.insts, Arena.get?_map]
    have hp : g.phis = f.phis.map (·.replace old new) :=
      Arena.ext_get? (by rw [Arena.size_map, hphis]) fun p => by rw [hr.phis, Arena.get?_map]
    rw [hi, hp] at hg
    exact hg
  · obtain ⟨a', ha', hc, hshape, hby⟩ := hr.get?_value huses hne hold
    have hempty : a' = { a with uses := ∅ } := by
      refine Value.eq_of_usesBy hc (fun u => by simp) hshape fun u => ?_
      rw [hby, if_pos rfl]
      rfl
    rw [ha', hempty]
  · obtain ⟨b', hb', -, hshape, hby⟩ := hr.get?_value huses hne hnew
    obtain ⟨hkind, hdef, -⟩ := Value.mk.inj hshape
    refine ⟨b', hb', hkind, hdef, fun u => ?_⟩
    rw [hby, if_neg hne.symm, if_pos rfl, huses.uses old a u hold, Nat.add_comm]
  · intro v hvold hvnew
    cases hv : f.values.get? v with
    | none =>
      have hshape := hr.shape.value v
      rwa [hv, Option.map_none, Option.map_eq_none_iff] at hshape
    | some val =>
      obtain ⟨val', hval', hc, hshape, hby⟩ := hr.get?_value huses hne hv
      rw [hval', Value.eq_of_usesBy hc (huses.counted v val hv) hshape fun u => by
        rw [hby, if_neg hvold, if_neg hvnew, Nat.add_zero]]

end Edit

/-- A sum whose definition holds the argument twice, a sum of both, and a phi with both as sources. -/
def sumsOfSums : List Call :=
  [.addArgument, .addBlock, .addBlock, .append ⟨0⟩ (.binary .add) [⟨0⟩, ⟨0⟩],
    .append ⟨0⟩ (.condBranch ⟨1⟩ ⟨2⟩) [⟨0⟩], .append ⟨1⟩ (.binary .add) [⟨0⟩, ⟨1⟩],
    .append ⟨1⟩ (.branch ⟨2⟩) [], .addPhi ⟨2⟩, .setPhiSource ⟨0⟩ ⟨0⟩ ⟨0⟩,
    .setPhiSource ⟨0⟩ ⟨1⟩ ⟨1⟩, .append ⟨2⟩ .ret [⟨3⟩]]

/-- All five slots of the argument go to the first sum, two of them in its own definition. -/
theorem sumsOfSums_moves_uses :
    ∃ f g b, f = sumsOfSums.foldl (fun f c => c.run f) (Func.new "f") ∧
      (Edit.replaceAllUses ⟨0⟩ ⟨1⟩).apply f = (.ok 5, g) ∧ g.values.get? ⟨1⟩ = some b ∧
      b.usesBy (.inst ⟨0⟩) = 2 ∧ b.usesBy (.inst ⟨2⟩) = 2 ∧ b.usesBy (.phi ⟨0⟩) = 2 := by
  obtain ⟨f, hf⟩ : ∃ f : Func, f = sumsOfSums.foldl (fun f c => c.run f) (Func.new "f") := ⟨_, rfl⟩
  have hold : f.values.get? ⟨0⟩ = some ⟨.value, .argument 0,
      .ofList [(.inst ⟨0⟩, 2), (.inst ⟨1⟩, 1), (.inst ⟨2⟩, 1), (.phi ⟨0⟩, 1)]⟩ := by
    rw [hf]
    decide +kernel
  have hnew : f.values.get? ⟨1⟩ = some ⟨.value, .inst ⟨0⟩,
      .ofList [(.inst ⟨2⟩, 1), (.phi ⟨0⟩, 1)]⟩ := by
    rw [hf]
    decide +kernel
  have hcount : f.slots.count ⟨0⟩ = 5 := by
    rw [hf]
    decide +kernel
  obtain ⟨g, hrun, -, -, -, ⟨b, hb, -, -, huses⟩, -⟩ :=
    Edit.replaceAllUses_moves_uses ⟨"f", sumsOfSums, hf⟩ hold hnew (by decide)
  rw [hcount] at hrun
  exact ⟨f, g, b, hf, hrun, hb, (huses _).trans (by decide), (huses _).trans (by decide),
    (huses _).trans (by decide)⟩

end Midend
