import Mathlib.Data.Finset.Card
import Midend.Proofs.ControlTree.Placement

/-!
The moves of a builder. Whatever frames lie around it, a builder that extends a frame with a block
comes to the point where that frame holds the chain from the block and is closed; an arm comes to
the point where it is handed over. So a group is what the recursion over chains says, none of the
frames is ever missing or left open, and three moves for each free block are enough.
-/

namespace Midend

open Func (Continuation)

namespace Region

theorem append_assoc (r s t : Region) : (r.append s).append t = r.append (s.append t) := by
  induction r with
  | done => rfl
  | block b rest ih => simp only [append, ih]
  | branch b condition t e rest _ _ ih => simp only [append, ih]
  | jump i rest ih => simp only [append, ih]

theorem dropLast_endWith (j : Jump) (r : Region) : (r.endWith j).dropLast = r := by
  induction r with
  | done => rfl
  | block b rest ih => cases rest <;> simp_all [Region.endWith, dropLast]
  | branch b condition t e rest _ _ ih => cases rest <;> simp_all [Region.endWith, dropLast]
  | jump i rest ih => cases rest <;> simp_all [Region.endWith, dropLast]

end Region

theorem Frame.push_push (frame : Frame) (r s : Region) :
    (frame.push r).push s = frame.push (r.append s) := by
  simp only [push, Region.append_assoc]

namespace Func

variable {f : Func} {dom : Dominance} {fuel : Nat} {placed : IndexSet} {b target : BlockId}
  {c : Chain}

def room (f : Func) (placed : IndexSet) : Finset Nat :=
  (Finset.range f.blocks.size).filter fun n => placed.contains n = false

theorem card_room_le (f : Func) (placed : IndexSet) : (f.room placed).card ≤ f.blocks.size :=
  (Finset.card_filter_le _ _).trans_eq (Finset.card_range _)

theorem room_anti {placed' : IndexSet} (h : ∀ x, placed.Has x → placed'.Has x) :
    (f.room placed').card ≤ (f.room placed).card := by
  refine Finset.card_le_card fun n hn => ?_
  simp only [room, Finset.mem_filter, Finset.mem_range] at hn ⊢
  refine ⟨hn.1, Bool.eq_false_iff.2 fun hin => ?_⟩
  have hin' : placed'.contains n = true := h ⟨n⟩ hin
  rw [hn.2] at hin'
  cases hin'

theorem room_insert_lt (hb : b.index < f.blocks.size) (hfree : ¬ placed.Has b) :
    (f.room (placed.insert b.index)).card < (f.room placed).card := by
  refine Finset.card_lt_card (Finset.ssubset_iff_of_subset ?_ |>.2 ⟨b.index, ?_, ?_⟩)
  · intro n hn
    simp only [room, Finset.mem_filter, IndexSet.contains_insert, Bool.or_eq_false_iff] at hn ⊢
    exact ⟨hn.1, hn.2.2⟩
  · rw [room, Finset.mem_filter, Finset.mem_range]
    exact ⟨hb, Bool.eq_false_iff.2 hfree⟩
  · simp [room, IndexSet.contains_insert]

theorem card_room_insert_lt (hb : b.index < f.blocks.size) :
    (f.room (placed.insert b.index)).card < f.blocks.size := by
  have hout : b.index ∉ f.room (placed.insert b.index) := by simp [room, IndexSet.contains_insert]
  have hsub : f.room (placed.insert b.index) ⊂ Finset.range f.blocks.size :=
    Finset.ssubset_iff_of_subset (Finset.filter_subset _ _) |>.2
      ⟨b.index, Finset.mem_range.2 hb, hout⟩
  exact (Finset.card_lt_card hsub).trans_eq (Finset.card_range _)

theorem index_lt_of_continuation {k : Continuation} (h : f.continuation b = .ok k) :
    b.index < f.blocks.size := by
  obtain ⟨i, inst, hterm, -⟩ := continuation_eq_ok h
  obtain ⟨data, hdata, -⟩ := bind_eq_ok.1 hterm
  exact hasBlock_lt (hasBlock_iff.2 ⟨data, block_eq_ok.1 hdata⟩)

/-- What goes on from `b` to `target`: a chain, or nothing but a jump. -/
def follow (f : Func) (dom : Dominance) (fuel : Nat) (placed : IndexSet) (b target : BlockId) :
    Except Error Chain :=
  if f.inlinable dom placed target then f.chain dom fuel placed target
  else return ⟨.done, .jump b target, placed⟩

theorem chain_of_error {e : Error} (h : f.continuation b = .error e) :
    f.chain dom (fuel + 1) placed b = .error e := by
  simp only [chain, h, bind, Except.bind]

theorem chain_of_leave (h : f.continuation b = .ok .leave) :
    f.chain dom (fuel + 1) placed b = .ok ⟨.block b .done, .diverge, placed.insert b.index⟩ := by
  simp only [chain, h, bind, Except.bind]
  rfl

theorem chain_of_next (h : f.continuation b = .ok (.next target)) :
    f.chain dom (fuel + 1) placed b = do
      let rest ← f.follow dom fuel (placed.insert b.index) b target
      return { rest with region := .block b rest.region } := by
  simp only [chain, h]
  rfl

theorem chain_of_choose {condition : ValueId} {ifTrue ifFalse : BlockId}
    (h : f.continuation b = .ok (.choose condition ifTrue ifFalse)) :
    f.chain dom (fuel + 1) placed b = do
      let t ← f.follow dom fuel (placed.insert b.index) b ifTrue
      let e ← f.follow dom fuel t.placed b ifFalse
      match f.join? dom e.placed t.exit e.exit with
      | some join =>
        let rest ← f.chain dom fuel e.placed join
        return { rest with region := .block b (.branch b condition t.region e.region rest.region) }
      | none =>
        return ⟨.block b (.branch b condition (t.region.close t.exit) (e.region.close e.exit)
          .done), .diverge, e.placed⟩ := by
  simp only [chain, h]
  rfl

theorem followedBy_of_follow (h : f.follow dom fuel placed b target = .ok c) :
    f.FollowedBy dom fuel placed b target c := by
  unfold follow at h
  split at h
  · exact .inl ⟨‹_›, h⟩
  · exact .inr (pure_eq_ok.1 h).symm

theorem chain_grows (h : f.chain dom fuel placed b = .ok c) {x : BlockId} (hx : placed.Has x) :
    c.placed.Has x := by
  have hinsert : ∀ {placed : IndexSet} {b : BlockId}, placed.Has x →
      (placed.insert b.index).Has x := fun hx => IndexSet.has_insert.2 (.inr hx)
  refine chain_induction (P := fun placed _ c => placed.Has x → c.placed.Has x)
    (Q := fun placed _ _ c => placed.Has x → c.placed.Has x)
    ?inline ?jump ?leave ?next ?join ?branch h hx
  case inline => exact fun _ _ hc => hc
  case jump => exact fun _ _ _ hx => hx
  case leave => exact fun _ hx => hinsert hx
  case next => exact fun _ hrest hx => hrest (hinsert hx)
  case join => exact fun _ ht he _ _ hrest hx => hrest (he (ht (hinsert hx)))
  case branch => exact fun _ ht he hx => he (ht (hinsert hx))

theorem FollowedBy.grows (h : f.FollowedBy dom fuel placed b target c) {x : BlockId}
    (hx : placed.Has x) : c.placed.Has x := by
  rcases h with ⟨-, hc⟩ | rfl
  · exact chain_grows hc hx
  · exact hx

variable {entry : BlockId} {n k : Nat} {m m' : Builder} {frame parent : Frame} {outer : List Frame}
  {r : Except Error (Region × IndexSet)} {K : Chain → Except Error (Region × IndexSet)}

/-- With `n` moves or more, the builder comes to the result `r`. -/
def EndsWithin (f : Func) (dom : Dominance) (entry : BlockId) (n : Nat) (m : Builder)
    (r : Except Error (Region × IndexSet)) : Prop :=
  ∀ fuel, n ≤ fuel → f.finishGroup dom entry fuel m = r

namespace EndsWithin

theorem mono (h : f.EndsWithin dom entry n m r) (hle : n ≤ k) : f.EndsWithin dom entry k m r :=
  fun fuel hfuel => h fuel (hle.trans hfuel)

theorem step (hm : f.advance dom m = .ok (.inl m')) (h : f.EndsWithin dom entry n m' r) :
    f.EndsWithin dom entry (n + 1) m r := by
  intro fuel hfuel
  obtain ⟨fuel, rfl⟩ : ∃ fuel', fuel = fuel' + 1 := ⟨fuel - 1, by omega⟩
  simp only [finishGroup, hm, bind, Except.bind]
  exact h fuel (by omega)

theorem last {result : Except Error (Region × IndexSet)}
    (hm : f.advance dom m = result.map .inr) : f.EndsWithin dom entry 1 m result := by
  intro fuel hfuel
  obtain ⟨fuel, rfl⟩ : ∃ fuel', fuel = fuel' + 1 := ⟨fuel - 1, by omega⟩
  cases result with
  | error e =>
    have hm' : f.advance dom m = .error e := hm
    simp only [finishGroup, hm', bind, Except.bind]
  | ok result =>
    have hm' : f.advance dom m = .ok (.inr result) := hm
    simp only [finishGroup, hm', bind, Except.bind]
    rfl

theorem congr (hm : f.advance dom m = f.advance dom m') (h : f.EndsWithin dom entry n m' r) :
    f.EndsWithin dom entry n m r := by
  intro fuel hfuel
  rw [← h fuel hfuel]
  cases fuel with
  | zero => rfl
  | succ fuel => simp only [finishGroup, hm]

end EndsWithin

theorem advance_extend {placed' : IndexSet} {frame' : Frame} {next : Move}
    (h : f.emit dom placed frame b = .ok (placed', frame', next)) :
    f.advance dom ⟨placed, frame :: outer, .extend b⟩ =
      .ok (.inl ⟨placed', frame' :: outer, next⟩) := by
  simp only [advance, h]
  rfl

theorem advance_openArm :
    f.advance dom ⟨placed, outer, .openArm b⟩ =
      f.advance dom ⟨placed, {} :: outer, .extend b⟩ := rfl

theorem advance_jumpArm {source : BlockId} {parent' : Frame} {next : Move}
    (h : f.deliver dom placed parent ⟨.jump ⟨source, target, false⟩ .done, .jump source target⟩ =
      .ok (parent', next)) :
    f.advance dom ⟨placed, parent :: outer, .jumpArm source target⟩ =
      .ok (.inl ⟨placed, parent' :: outer, next⟩) := by
  simp only [advance, h]
  rfl

theorem advance_close {exit : Exit} {parent' : Frame} {next : Move} (hopen : frame.branch = none)
    (h : f.deliver dom placed parent ⟨frame.body, exit⟩ = .ok (parent', next)) :
    f.advance dom ⟨placed, frame :: parent :: outer, .close exit⟩ =
      .ok (.inl ⟨placed, parent' :: outer, next⟩) := by
  simp only [advance, hopen, h]
  rfl

theorem endsWithin_of_error {e : Error} (h : f.continuation b = .error e) :
    f.EndsWithin dom entry 1 ⟨placed, frame :: outer, .extend b⟩ (.error e) := by
  refine .last ?_
  simp only [advance, emit, h, bind, Except.bind]
  rfl

/-- The arms of a branch. An arm comes to the point where it is handed over, given how chains
behave. -/
theorem endsWithin_arm
    (hchain : ∀ {frames : List Frame} {K : Chain → Except Error (Region × IndexSet)},
      f.inlinable dom placed target = true →
      (∀ c, f.chain dom fuel placed target = .ok c → f.EndsWithin dom entry
        (k + 1 + 3 * (f.room c.placed).card)
        ⟨c.placed, Frame.push {} (c.region.close c.exit) :: frames, .close c.exit⟩ (K c)) →
      f.EndsWithin dom entry (k + 1 + 3 * (f.room placed).card)
        ⟨placed, {} :: frames, .extend target⟩ (f.chain dom fuel placed target >>= K))
    (hK : ∀ t, f.follow dom fuel placed b target = .ok t → ∃ parent' next,
      f.deliver dom t.placed parent ⟨t.region.close t.exit, t.exit⟩ = .ok (parent', next) ∧
        f.EndsWithin dom entry (k + 3 * (f.room t.placed).card)
          ⟨t.placed, parent' :: outer, next⟩ (K t)) :
    f.EndsWithin dom entry (k + 1 + 3 * (f.room placed).card)
      ⟨placed, parent :: outer, f.armMove dom placed b target⟩
      (f.follow dom fuel placed b target >>= K) := by
  unfold armMove follow at *
  split
  · rename_i hin
    rw [if_pos hin] at hK
    refine (hchain hin fun c hc => ?_).congr advance_openArm
    obtain ⟨parent', next, hdeliver, hend⟩ := hK c hc
    exact (hend.step (advance_close rfl hdeliver)).mono (by omega)
  · rename_i hin
    rw [if_neg hin] at hK
    obtain ⟨parent', next, hdeliver, hend⟩ := hK _ rfl
    exact (hend.step (advance_jumpArm hdeliver)).mono (by dsimp only; omega)

theorem deliver_second {t e : Chain} {condition : ValueId} {ifFalse : BlockId}
    (hparent : parent.branch =
      some ⟨b, condition, ifFalse, some ⟨t.region.close t.exit, t.exit⟩⟩) :
    f.deliver dom placed parent ⟨e.region.close e.exit, e.exit⟩ =
      .ok (match f.join? dom placed t.exit e.exit with
        | some join => (Frame.push { parent with branch := none }
            (.branch b condition t.region e.region .done), .extend join)
        | none => (Frame.push { parent with branch := none }
            (.branch b condition (t.region.close t.exit) (e.region.close e.exit) .done),
            .close .diverge)) := by
  simp only [deliver, hparent, Frame.takeBranch]
  cases hjoin : f.join? dom placed t.exit e.exit with
  | none => rfl
  | some join =>
    obtain ⟨x, y, htexit, heexit, -, -⟩ := join?_eq_some hjoin
    rw [htexit, heexit]
    simp only [Region.close, Region.dropLast_endWith]
    rfl

/-- With this fuel, a builder that extends a frame without an open branch comes to the point where
the frame holds the chain and is closed; what is done from there is up to `K`. -/
def ChainsEnd (f : Func) (dom : Dominance) (entry : BlockId) (fuel : Nat) : Prop :=
  ∀ {placed : IndexSet} {b : BlockId} {body : Region} {outer : List Frame} {k : Nat}
    {K : Chain → Except Error (Region × IndexSet)}, 0 < k →
    (f.room (placed.insert b.index)).card + 1 < fuel →
    (∀ c, f.chain dom fuel placed b = .ok c →
      f.EndsWithin dom entry (k + 3 * (f.room c.placed).card)
        ⟨c.placed, ⟨body.append (c.region.close c.exit), none⟩ :: outer, .close c.exit⟩ (K c)) →
    f.EndsWithin dom entry (k + 3 + 3 * (f.room (placed.insert b.index)).card)
      ⟨placed, ⟨body, none⟩ :: outer, .extend b⟩ (f.chain dom fuel placed b >>= K)

/-- A free block takes no more than the room that it fills. A block that does not exist fails at
once. -/
theorem ChainsEnd.free (h : f.ChainsEnd dom entry fuel) (hk : 0 < k) {body : Region}
    (hfree : ¬ placed.Has b) (hroom : (f.room placed).card < fuel)
    (hK : ∀ c, f.chain dom fuel placed b = .ok c →
      f.EndsWithin dom entry (k + 3 * (f.room c.placed).card)
        ⟨c.placed, ⟨body.append (c.region.close c.exit), none⟩ :: outer, .close c.exit⟩ (K c)) :
    f.EndsWithin dom entry (k + 3 * (f.room placed).card)
      ⟨placed, ⟨body, none⟩ :: outer, .extend b⟩ (f.chain dom fuel placed b >>= K) := by
  cases hcont : f.continuation b with
  | error e =>
    obtain ⟨fuel, rfl⟩ : ∃ fuel', fuel = fuel' + 1 := ⟨fuel - 1, by omega⟩
    rw [chain_of_error hcont]
    exact (endsWithin_of_error hcont).mono (by omega)
  | ok after =>
    have hlt := room_insert_lt (index_lt_of_continuation hcont) hfree
    exact (h hk (by omega) hK).mono (by omega)

section Step

variable (h : f.ChainsEnd dom entry fuel) (hk : 0 < k) {body : Region}
  (hroom : (f.room (placed.insert b.index)).card < fuel)
  (hK : ∀ c, f.chain dom (fuel + 1) placed b = .ok c →
    f.EndsWithin dom entry (k + 3 * (f.room c.placed).card)
      ⟨c.placed, ⟨body.append (c.region.close c.exit), none⟩ :: outer, .close c.exit⟩ (K c))
include h hk hroom hK

theorem endsWithin_next (hcont : f.continuation b = .ok (.next target)) :
    f.EndsWithin dom entry (k + 3 + 3 * (f.room (placed.insert b.index)).card)
      ⟨placed, ⟨body, none⟩ :: outer, .extend b⟩ (f.chain dom (fuel + 1) placed b >>= K) := by
  rw [chain_of_next hcont] at hK ⊢
  simp only [bind_assoc, pure_bind]
  cases hin : f.inlinable dom (placed.insert b.index) target with
  | true =>
    have hemit : f.emit dom placed ⟨body, none⟩ b = .ok (placed.insert b.index,
        ⟨body.append (.block b .done), none⟩, .extend target) := by
      simp only [emit, hcont, hin, bind, Except.bind, if_true]
      rfl
    have hfollow : ∀ fuel, f.follow dom fuel (placed.insert b.index) b target =
        f.chain dom fuel (placed.insert b.index) target := fun fuel => if_pos hin
    rw [hfollow] at hK ⊢
    refine ((h.free hk (inlinable_iff.1 hin).2.1 hroom fun rest hrest => ?_).step
      (advance_extend hemit)).mono (by omega)
    have hend := hK _ (bind_eq_ok.2 ⟨rest, hrest, rfl⟩)
    rw [Region.append_assoc]
    rwa [Region.close_block] at hend
  | false =>
    have hemit : f.emit dom placed ⟨body, none⟩ b = .ok (placed.insert b.index,
        ⟨body.append (.block b (.jump ⟨b, target, false⟩ .done)), none⟩,
        .close (.jump b target)) := by
      simp only [emit, hcont, hin, bind, Except.bind, Bool.false_eq_true, if_false,
        Frame.push_push]
      rfl
    have hfollow : f.follow dom fuel (placed.insert b.index) b target =
        .ok ⟨.done, .jump b target, placed.insert b.index⟩ := if_neg (by simp [hin])
    rw [hfollow] at hK ⊢
    exact ((hK _ rfl).step (advance_extend hemit)).mono (by dsimp only; omega)

theorem endsWithin_choose {condition : ValueId} {ifTrue ifFalse : BlockId}
    (hcont : f.continuation b = .ok (.choose condition ifTrue ifFalse)) :
    f.EndsWithin dom entry (k + 3 + 3 * (f.room (placed.insert b.index)).card)
      ⟨placed, ⟨body, none⟩ :: outer, .extend b⟩ (f.chain dom (fuel + 1) placed b >>= K) := by
  rw [chain_of_choose hcont] at hK ⊢
  simp only [bind_assoc]
  have hemit : f.emit dom placed ⟨body, none⟩ b = .ok (placed.insert b.index,
      ⟨body.append (.block b .done), some ⟨b, condition, ifFalse, none⟩⟩,
      f.armMove dom (placed.insert b.index) b ifTrue) := by
    simp only [emit, hcont]
    rfl
  -- The first arm is kept while the second one is built, and that one completes the branch.
  refine ((endsWithin_arm (k := k + 1) (fun hin => h.free (by omega) (inlinable_iff.1 hin).2.1
    hroom) fun t ht => ⟨_, _, rfl, ?_⟩).step (advance_extend hemit)).mono (by omega)
  have hroomt := room_anti (f := f) fun x => (followedBy_of_follow ht).grows (x := x)
  refine endsWithin_arm (fun hin => h.free (by omega) (inlinable_iff.1 hin).2.1 (by omega))
    fun e he => ⟨_, _, deliver_second rfl, ?_⟩
  have hroome := room_anti (f := f) fun x => (followedBy_of_follow he).grows (x := x)
  cases hjoin : f.join? dom e.placed t.exit e.exit with
  | none =>
    have hend := hK _ (bind_eq_ok.2 ⟨t, ht, bind_eq_ok.2 ⟨e, he, by rw [hjoin]; rfl⟩⟩)
    simp only [Frame.push, Region.append_assoc]
    exact hend
  | some join =>
    obtain ⟨x, y, -, -, hxy, hjoinable⟩ := join?_eq_some hjoin
    simp only [Frame.push, bind_assoc, pure_bind]
    refine h.free hk (joinable_spec hxy hjoinable).2.1 (by omega) fun rest hrest => ?_
    have hend := hK _ (bind_eq_ok.2 ⟨t, ht, bind_eq_ok.2 ⟨e, he, by
      rw [hjoin]
      exact bind_eq_ok.2 ⟨rest, hrest, rfl⟩⟩⟩)
    rw [Region.append_assoc, Region.append_assoc]
    rwa [Region.close_block, Region.close_branch] at hend

end Step

theorem ChainsEnd.succ (h : f.ChainsEnd dom entry fuel) : f.ChainsEnd dom entry (fuel + 1) := by
  intro placed b body outer k K hk hroom hK
  replace hroom : (f.room (placed.insert b.index)).card < fuel := by omega
  cases hcont : f.continuation b with
  | error e =>
    rw [chain_of_error hcont]
    exact (endsWithin_of_error hcont).mono (by omega)
  | ok after =>
    cases after with
    | leave =>
      have hemit : f.emit dom placed ⟨body, none⟩ b = .ok (placed.insert b.index,
          ⟨body.append (.block b .done), none⟩, .close .diverge) := by
        simp only [emit, hcont]
        rfl
      have hchain : f.chain dom (fuel + 1) placed b =
          .ok ⟨.block b .done, .diverge, placed.insert b.index⟩ := chain_of_leave hcont
      rw [hchain]
      exact ((hK _ hchain).step (advance_extend hemit)).mono (by dsimp only; omega)
    | next target => exact endsWithin_next h hk hroom hK hcont
    | choose condition ifTrue ifFalse => exact endsWithin_choose h hk hroom hK hcont

theorem chainsEnd (f : Func) (dom : Dominance) (entry : BlockId) (fuel : Nat) :
    f.ChainsEnd dom entry fuel := by
  induction fuel with
  | zero => exact fun _ hroom => absurd hroom (Nat.not_lt_zero _)
  | succ fuel ih => exact ih.succ

/-- A group is built as the recursion over chains says, errors included. -/
theorem buildGroup_eq (f : Func) (dom : Dominance) (placed : IndexSet) (b : BlockId) :
    f.buildGroup dom placed b = do
      let c ← f.chain dom (f.blocks.size + 1) placed b
      return (c.region.close c.exit, c.placed) := by
  cases hcont : f.continuation b with
  | error e =>
    rw [chain_of_error hcont]
    exact endsWithin_of_error hcont _ (by omega)
  | ok after =>
    have hroom : (f.room (placed.insert b.index)).card < f.blocks.size :=
      card_room_insert_lt (index_lt_of_continuation hcont)
    refine f.chainsEnd dom b (f.blocks.size + 1) (k := 1) Nat.one_pos (by omega) (fun c _ => ?_) _
      (by omega)
    have hlast : f.EndsWithin dom b 1
        ⟨c.placed, [⟨c.region.close c.exit, none⟩], .close c.exit⟩
        (.ok (c.region.close c.exit, c.placed)) := .last rfl
    exact hlast.mono (by omega)

end Func

end Midend
