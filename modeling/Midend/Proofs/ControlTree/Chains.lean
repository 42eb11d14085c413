import Midend.Proofs.ControlTree.Leads
import Midend.Proofs.Edit.Sound

namespace Midend

open Func (Continuation)

namespace Region

def close (r : Region) : Exit → Region
  | .diverge => r
  | .jump source target => r.endWith ⟨source, target, false⟩

end Region

/-- A chain of blocks: its region without a final jump, how it ends, and the blocks placed so far. -/
structure Chain where
  region : Region
  exit : Exit
  placed : IndexSet

/-- Chains blocks from `b` on. Each block is placed before its successors are looked at, so the
number of blocks bounds the depth. -/
def Func.chain (f : Func) (dom : Dominance) : Nat → IndexSet → BlockId → Except Error Chain
  | 0, _, b => throw (.invariant (.endlessChain b))
  | fuel + 1, placed, b => do
    let placed := placed.insert b.index
    let follow (placed : IndexSet) (target : BlockId) : Except Error Chain :=
      if f.inlinable dom placed target then chain f dom fuel placed target
      else return ⟨.done, .jump b target, placed⟩
    match ← f.continuation b with
    | .leave => return ⟨.block b .done, .diverge, placed⟩
    | .next target =>
      let rest ← follow placed target
      return { rest with region := .block b rest.region }
    | .choose condition ifTrue ifFalse =>
      let t ← follow placed ifTrue
      let e ← follow t.placed ifFalse
      match f.join? dom e.placed t.exit e.exit with
      | some join =>
        let rest ← chain f dom fuel e.placed join
        return { rest with region := .block b (.branch b condition t.region e.region rest.region) }
      | none =>
        return {
          region := .block b
            (.branch b condition (t.region.close t.exit) (e.region.close e.exit) .done)
          exit := .diverge
          placed := e.placed }

def IndexSet.Has (s : IndexSet) (b : BlockId) : Prop := s.contains b.index = true

theorem IndexSet.has_insert {s : IndexSet} {b x : BlockId} :
    (s.insert b.index).Has x ↔ x = b ∨ s.Has x := contains_insert_index

def Exit.target? : Exit → Option BlockId
  | .diverge => none
  | .jump _ target => some target

namespace Region

variable {f : Func} {entry : BlockId → Prop} {r : Region} {c : Continuation}

theorem close_block (b : BlockId) (r : Region) (exit : Exit) :
    (block b r).close exit = block b (r.close exit) := by
  cases exit <;> rfl

theorem close_branch (b : BlockId) (condition : ValueId) (t e r : Region) (exit : Exit) :
    (branch b condition t e r).close exit = branch b condition t e (r.close exit) := by
  cases exit <;> rfl

@[simp]
theorem jumps_endWith (j : Jump) (r : Region) : (r.endWith j).jumps = r.jumps ++ [j] := by
  induction r with
  | done => rfl
  | block b rest ih => exact ih
  | branch b condition t e rest _ _ ih => simp [Region.endWith, jumps, ih]
  | jump i rest ih => simp [Region.endWith, jumps, ih]

theorem mem_jumps_close {exit : Exit} {j : Jump} :
    j ∈ (r.close exit).jumps ↔
      j ∈ r.jumps ∨ ∃ s t, exit = .jump s t ∧ j = ⟨s, t, false⟩ := by
  cases exit <;> simp [close]

@[simp]
theorem conditions_close (r : Region) (exit : Exit) : (r.close exit).conditions = r.conditions := by
  cases exit <;> simp [close]

theorem Leads.close {exit : Exit} (h : r.Leads f entry exit.target? c)
    (hj : ∀ j ∈ (r.close exit).jumps, entry j.target) : (r.close exit).Leads f entry none c := by
  cases exit with
  | diverge => exact h
  | jump s t =>
    refine Leads.endWith (j := ⟨s, t, false⟩) (hj _ ?_) none h
    exact mem_jumps_close.2 (.inr ⟨s, t, rfl, rfl⟩)

end Region

namespace Func

variable {f : Func} {dom : Dominance} {fuel : Nat} {placed : IndexSet} {b : BlockId} {c : Chain}

/-- The chain that goes on from `b` to one of its targets. -/
def FollowedBy (f : Func) (dom : Dominance) (fuel : Nat) (placed : IndexSet) (b target : BlockId)
    (c : Chain) : Prop :=
  (f.inlinable dom placed target = true ∧ f.chain dom fuel placed target = .ok c) ∨
    c = ⟨.done, .jump b target, placed⟩

theorem chain_cases (h : f.chain dom (fuel + 1) placed b = .ok c) :
    (f.continuation b = .ok .leave ∧ c = ⟨.block b .done, .diverge, placed.insert b.index⟩) ∨
    (∃ target rest, f.continuation b = .ok (.next target) ∧
      f.FollowedBy dom fuel (placed.insert b.index) b target rest ∧
      c = { rest with region := .block b rest.region }) ∨
    ∃ condition ifTrue ifFalse t e, f.continuation b = .ok (.choose condition ifTrue ifFalse) ∧
      f.FollowedBy dom fuel (placed.insert b.index) b ifTrue t ∧
      f.FollowedBy dom fuel t.placed b ifFalse e ∧
      ((∃ join rest, f.join? dom e.placed t.exit e.exit = some join ∧
          f.chain dom fuel e.placed join = .ok rest ∧
          c = { rest with
            region := .block b (.branch b condition t.region e.region rest.region) }) ∨
        c = ⟨.block b (.branch b condition (t.region.close t.exit) (e.region.close e.exit) .done),
          .diverge, e.placed⟩) := by
  have hfollow : ∀ {placed : IndexSet} {target : BlockId} {c : Chain},
      (if f.inlinable dom placed target then f.chain dom fuel placed target
        else return ⟨.done, .jump b target, placed⟩ : Except Error Chain) = .ok c →
      f.FollowedBy dom fuel placed b target c := by
    intro placed target c h
    split at h
    · exact .inl ⟨‹_›, h⟩
    · exact .inr (pure_eq_ok.1 h).symm
  unfold chain at h
  obtain ⟨cont, hcont, h⟩ := bind_eq_ok.1 h
  cases cont with
  | leave => exact .inl ⟨hcont, (pure_eq_ok.1 h).symm⟩
  | next target =>
    obtain ⟨rest, hrest, h⟩ := bind_eq_ok.1 h
    exact .inr (.inl ⟨target, rest, hcont, hfollow hrest, (pure_eq_ok.1 h).symm⟩)
  | choose condition ifTrue ifFalse =>
    obtain ⟨t, ht, h⟩ := bind_eq_ok.1 h
    obtain ⟨e, he, h⟩ := bind_eq_ok.1 h
    refine .inr (.inr ⟨condition, ifTrue, ifFalse, t, e, hcont, hfollow ht, hfollow he, ?_⟩)
    cases hjoin : f.join? dom e.placed t.exit e.exit with
    | none =>
      simp only [hjoin] at h
      exact .inr (pure_eq_ok.1 h).symm
    | some join =>
      simp only [hjoin] at h
      obtain ⟨rest, hrest, h⟩ := bind_eq_ok.1 h
      exact .inl ⟨join, rest, rfl, hrest, (pure_eq_ok.1 h).symm⟩

theorem chain_region (h : f.chain dom fuel placed b = .ok c) : ∃ rest, c.region = .block b rest := by
  cases fuel with
  | zero => cases h
  | succ fuel =>
    rcases chain_cases h with ⟨-, rfl⟩ | ⟨-, -, -, -, rfl⟩ |
      ⟨-, -, -, -, -, -, -, -, ⟨-, -, -, -, rfl⟩ | rfl⟩
    all_goals exact ⟨_, rfl⟩

/-- Induction over the parts of a chain. `P placed b c` is about a chain from `b`, and
`Q placed b target c` about what goes on from `b` to `target`: a chain again, or a jump. -/
theorem chain_induction {P : IndexSet → BlockId → Chain → Prop}
    {Q : IndexSet → BlockId → BlockId → Chain → Prop}
    (inline : ∀ {n : Nat} {placed : IndexSet} {b target : BlockId} {c : Chain},
      f.inlinable dom placed target = true → f.chain dom n placed target = .ok c →
      P placed target c → Q placed b target c)
    (jump : ∀ (placed : IndexSet) (b target : BlockId),
      Q placed b target ⟨.done, .jump b target, placed⟩)
    (leave : ∀ {placed : IndexSet} {b : BlockId}, f.continuation b = .ok .leave →
      P placed b ⟨.block b .done, .diverge, placed.insert b.index⟩)
    (next : ∀ {placed : IndexSet} {b target : BlockId} {rest : Chain},
      f.continuation b = .ok (.next target) → Q (placed.insert b.index) b target rest →
      P placed b { rest with region := .block b rest.region })
    (join : ∀ {n : Nat} {placed : IndexSet} {b : BlockId} {condition : ValueId}
      {ifTrue ifFalse : BlockId} {t e : Chain} {join : BlockId} {rest : Chain},
      f.continuation b = .ok (.choose condition ifTrue ifFalse) →
      Q (placed.insert b.index) b ifTrue t → Q t.placed b ifFalse e →
      f.join? dom e.placed t.exit e.exit = some join →
      f.chain dom n e.placed join = .ok rest → P e.placed join rest →
      P placed b { rest with
        region := .block b (.branch b condition t.region e.region rest.region) })
    (branch : ∀ {placed : IndexSet} {b : BlockId} {condition : ValueId} {ifTrue ifFalse : BlockId}
      {t e : Chain}, f.continuation b = .ok (.choose condition ifTrue ifFalse) →
      Q (placed.insert b.index) b ifTrue t → Q t.placed b ifFalse e →
      P placed b ⟨.block b (.branch b condition (t.region.close t.exit) (e.region.close e.exit)
        .done), .diverge, e.placed⟩)
    (h : f.chain dom fuel placed b = .ok c) : P placed b c := by
  induction fuel generalizing placed b c with
  | zero => cases h
  | succ fuel ih =>
    have hfollow : ∀ {placed : IndexSet} {b target : BlockId} {c : Chain},
        f.FollowedBy dom fuel placed b target c → Q placed b target c := by
      rintro placed b target c (⟨hin, hc⟩ | rfl)
      · exact inline hin hc (ih hc)
      · exact jump placed b target
    rcases chain_cases h with ⟨hcont, rfl⟩ | ⟨target, rest, hcont, hrest, rfl⟩ |
      ⟨condition, ifTrue, ifFalse, t, e, hcont, ht, he, ⟨join', rest, hjoin, hrest, rfl⟩ | rfl⟩
    · exact leave hcont
    · exact next hcont (hfollow hrest)
    · exact join hcont (hfollow ht) (hfollow he) hjoin hrest (ih hrest)
    · exact branch hcont (hfollow ht) (hfollow he)

theorem join?_eq_some {s : Exit} {t : Exit} {join : BlockId}
    (h : f.join? dom placed s t = some join) :
    ∃ x y, s = .jump x join ∧ t = .jump y join ∧ x ≠ y ∧
      f.joinable dom placed join x y = true := by
  unfold join? at h
  split at h
  · rename_i x b y c
    split at h
    · rename_i hc
      obtain rfl := Option.some.inj h
      simp only [Bool.and_eq_true, decide_eq_true_eq, bne_iff_ne] at hc
      obtain ⟨⟨rfl, hne⟩, hjoin⟩ := hc
      exact ⟨x, y, rfl, rfl, hne, hjoin⟩
    · cases h
  · cases h

/-- The first operand of the terminator of a block decides its branch. -/
def Decides (f : Func) (condition : BlockId × ValueId) : Prop :=
  ∃ i inst, f.terminator condition.1 = .ok (some i) ∧ f.insts.get? i = some inst ∧
    inst.operands.head? = some condition.2

theorem decides_of_choose {condition : ValueId} {ifTrue ifFalse : BlockId}
    (h : f.continuation b = .ok (.choose condition ifTrue ifFalse)) :
    f.Decides (b, condition) := by
  obtain ⟨i, inst, hterm, hi, -, hc⟩ := continuation_eq_ok h
  refine ⟨i, inst, hterm, hi, ?_⟩
  cases hopcode : inst.opcode <;> simp only [hopcode] at hc
  case condBranch t e =>
    split at hc
    · cases hc
    · obtain ⟨v, hv, heq⟩ := hc
      cases heq
      exact hv
  all_goals cases hc

/-- A chain leads on as the terminators do as long as its jumps go to entries, and branches on the
operands of the terminators. -/
theorem chain_leads {entry : BlockId → Prop} (h : f.chain dom fuel placed b = .ok c)
    (hj : ∀ j ∈ c.region.jumps, entry j.target) :
    c.region.Leads f entry c.exit.target? (.next b) ∧ ∀ x ∈ c.region.conditions, f.Decides x := by
  refine chain_induction
    (P := fun _ b c => (∀ j ∈ c.region.jumps, entry j.target) →
      c.region.Leads f entry c.exit.target? (.next b) ∧ ∀ x ∈ c.region.conditions, f.Decides x)
    (Q := fun _ _ target c => (∀ j ∈ c.region.jumps, entry j.target) →
      c.region.Leads f entry c.exit.target? (.next target) ∧
        ∀ x ∈ c.region.conditions, f.Decides x)
    ?inline ?jump ?leave ?next ?join ?branch h hj
  case inline => exact fun _ _ hc => hc
  case jump => exact fun _ _ _ _ => ⟨rfl, by simp [Region.conditions]⟩
  case leave => exact fun hcont _ => ⟨⟨rfl, _, hcont, rfl⟩, by simp [Region.conditions]⟩
  case next =>
    intro _ _ _ _ hcont hrest hj
    obtain ⟨hlead, hcond⟩ := hrest hj
    exact ⟨⟨rfl, _, hcont, hlead⟩, hcond⟩
  case join =>
    intro _ _ _ _ ifTrue ifFalse t e join _ hcont ht he hjoin _ hrest hj
    obtain ⟨x, y, htexit, heexit, -, -⟩ := join?_eq_some hjoin
    simp only [Region.jumps, List.mem_append] at hj
    obtain ⟨htlead, htcond⟩ := ht fun j hmem => hj j (.inl (.inl hmem))
    obtain ⟨helead, hecond⟩ := he fun j hmem => hj j (.inl (.inr hmem))
    obtain ⟨hrlead, hrcond⟩ := hrest fun j hmem => hj j (.inr hmem)
    rw [htexit] at htlead
    rw [heexit] at helead
    refine ⟨⟨rfl, _, hcont, ifTrue, ifFalse, some join, rfl, hcont, htlead, helead, hrlead⟩, ?_⟩
    simp only [Region.conditions, List.mem_cons, List.mem_append]
    rintro z (rfl | (hz | hz) | hz)
    · exact decides_of_choose hcont
    · exact htcond z hz
    · exact hecond z hz
    · exact hrcond z hz
  case branch =>
    intro _ _ _ ifTrue ifFalse t e hcont ht he hj
    simp only [Region.jumps, List.mem_append, List.append_nil] at hj
    obtain ⟨htlead, htcond⟩ := ht fun j hmem => hj j (.inl (Region.mem_jumps_close.2 (.inl hmem)))
    obtain ⟨helead, hecond⟩ := he fun j hmem => hj j (.inr (Region.mem_jumps_close.2 (.inl hmem)))
    refine ⟨⟨rfl, _, hcont, ifTrue, ifFalse, none, rfl, hcont,
      htlead.close fun j hmem => hj j (.inl hmem), helead.close fun j hmem => hj j (.inr hmem),
      rfl⟩, ?_⟩
    simp only [Region.conditions, Region.conditions_close, List.mem_cons, List.mem_append,
      List.append_nil]
    rintro z (rfl | hz | hz)
    · exact decides_of_choose hcont
    · exact htcond z hz
    · exact hecond z hz

end Func

end Midend
