import Midend.Promotion.Rename
import Midend.Proofs.Func.Verified

namespace Midend

/-- How the instruction of a use holds the cell `c`. -/
def CellUse.Fits (c : ValueId) (inst : Inst) : CellUse → Prop
  | load _ => inst.opcode = .getRef ∧ inst.operands.head? = some c
  | store _ => inst.opcode = .setRef ∧ inst.operands.head? = some c ∧ inst.operands[1]? ≠ some c
  | capture _ => ∃ proto, inst.opcode = .closure proto

/-- The cell of a creation in reachable code, with all its uses. -/
structure Cell.IsIn (cell : Cell) (f : Func) (d : Dominance) : Prop where
  creation : ∃ inst, f.insts.get? cell.creation = some inst ∧ inst.opcode = .newRef ∧
    inst.result = some cell.value ∧ inst.operands.head? = some cell.initial ∧
    inst.block = cell.home
  home_reachable : d.isReachable cell.home = true
  use : ∀ u ∈ cell.uses, ∃ inst, f.insts.get? u.inst = some inst ∧
    d.isReachable inst.block = true ∧ cell.value ∈ inst.operands ∧ u.Fits cell.value inst
  listed : ∀ i inst, f.insts.get? i = some inst → cell.value ∈ inst.operands →
    ∃ u ∈ cell.uses, u.inst = i
  source : ∀ p phi q, f.phis.get? p = some phi → phi.source q ≠ some cell.value
  distinct : (cell.uses.map CellUse.inst).Nodup

namespace Verdict

variable {α β : Type}

/-- A computation that neither fails nor rejects. -/
def Accepts (x : Verdict α) (a : α) : Prop := x.run = .ok (.ok a)

theorem accepts_bind {x : Verdict α} {k : α → Verdict β} {b : β} (h : Accepts (x >>= k) b) :
    ∃ a, Accepts x a ∧ Accepts (k a) b := by
  unfold Accepts at h ⊢
  rw [ExceptT.run_bind] at h
  obtain ⟨r, hr, h⟩ := bind_eq_ok.1 h
  cases r with
  | error why => cases h
  | ok a => exact ⟨a, hr, h⟩

theorem accepts_pure {a b : α} (h : Accepts (pure a) b) : a = b := by
  cases h
  rfl

theorem accepts_lift {x : Except Error α} {a : α} (h : Accepts (liftM x) a) : x = .ok a := by
  cases x with
  | error err => cases h
  | ok b =>
    cases h
    rfl

theorem accepts_throw {why : Rejection} {a : α} : ¬ Accepts (throw why : Verdict α) a := by
  intro h
  cases h

theorem accepts_mapM {as : List α} {u : α → Verdict β} {bs : List β} (h : Accepts (as.mapM u) bs) :
    List.Forall₂ (fun a b => Accepts (u a) b) as bs := by
  induction as generalizing bs with
  | nil =>
    rw [List.mapM_nil] at h
    obtain rfl := accepts_pure h
    exact .nil
  | cons a as ih =>
    rw [List.mapM_cons] at h
    obtain ⟨b, hb, h⟩ := accepts_bind h
    obtain ⟨bs', hbs, h⟩ := accepts_bind h
    obtain rfl := accepts_pure h
    exact .cons hb (ih hbs)

theorem accepts_bind_of {x : Verdict α} {k : α → Verdict β} {a : α} {b : β} (hx : Accepts x a)
    (hk : Accepts (k a) b) : Accepts (x >>= k) b := by
  unfold Accepts at hx ⊢
  rw [ExceptT.run_bind, hx]
  exact hk

theorem accepts_read {x : Except Error α} {k : α → Verdict β} {a : α} {b : β} (hx : x = .ok a)
    (hk : Accepts (k a) b) : Accepts ((liftM x : Verdict α) >>= k) b := by
  subst hx
  exact hk

theorem exists_accepts_mapM {as : List α} {u : α → Verdict β}
    (h : ∀ a ∈ as, ∃ b, Accepts (u a) b) : ∃ bs, Accepts (as.mapM u) bs := by
  induction as with
  | nil => exact ⟨[], rfl⟩
  | cons a as ih =>
    obtain ⟨⟨b, hb⟩, has⟩ := List.forall_mem_cons.1 h
    obtain ⟨bs, hbs⟩ := ih has
    refine ⟨b :: bs, ?_⟩
    rw [List.mapM_cons]
    exact accepts_bind_of hb (accepts_bind_of hbs rfl)

/-- A computation that does not fail. -/
def Answers (x : Verdict α) : Prop := ∃ r, x.run = .ok r

theorem answers_pure (a : α) : Answers (pure a) := ⟨.ok a, rfl⟩

theorem answers_throw (why : Rejection) : Answers (throw why : Verdict α) := ⟨.error why, rfl⟩

theorem answers_lift {x : Except Error α} {a : α} (h : x = .ok a) :
    Answers (liftM x : Verdict α) := by
  subst h
  exact ⟨.ok a, rfl⟩

theorem answers_bind {x : Verdict α} {k : α → Verdict β} (hx : Answers x)
    (hk : ∀ a, Accepts x a → Answers (k a)) : Answers (x >>= k) := by
  obtain ⟨r, hr⟩ := hx
  unfold Answers
  rw [ExceptT.run_bind, hr]
  cases r with
  | error why => exact ⟨.error why, rfl⟩
  | ok a => exact hk a hr

theorem answers_throw_bind (why : Rejection) (k : α → Verdict β) :
    Answers ((throw why : Verdict α) >>= k) :=
  answers_bind (answers_throw why) fun _ h => absurd h accepts_throw

theorem answers_read {x : Except Error α} {k : α → Verdict β} {a : α} (hx : x = .ok a)
    (hk : Answers (k a)) : Answers ((liftM x : Verdict α) >>= k) := by
  refine answers_bind (answers_lift hx) fun b hb => ?_
  obtain rfl := Except.ok.inj (hx.symm.trans (accepts_lift hb))
  exact hk

theorem answers_mapM {as : List α} {u : α → Verdict β} (h : ∀ a ∈ as, Answers (u a)) :
    Answers (as.mapM u) := by
  induction as with
  | nil => exact answers_pure []
  | cons a as ih =>
    obtain ⟨ha, has⟩ := List.forall_mem_cons.1 h
    rw [List.mapM_cons]
    exact answers_bind ha fun _ _ => answers_bind (ih has) fun _ _ => answers_pure _

end Verdict

namespace Func

open Verdict

variable {f : Func} {d : Dominance}

theorem cellUse_accepts {c : ValueId} {user : User} {u : CellUse}
    (h : Accepts (f.cellUse d c user) u) :
    ∃ inst, user = .inst u.inst ∧ f.insts.get? u.inst = some inst ∧
      d.isReachable inst.block = true ∧ u.Fits c inst := by
  cases user with
  | phi p => exact absurd h accepts_throw
  | inst i =>
    unfold cellUse at h
    obtain ⟨inst, hinst, h⟩ := accepts_bind h
    have hi := inst_eq_ok.1 (accepts_lift hinst)
    have hend : ∀ {access : CellUse}, Accepts (do
        unless d.isReachable inst.block do throw .unreachable
        return access) u → d.isReachable inst.block = true ∧ access = u := by
      intro access h
      dsimp only at h
      split at h
      · exact ⟨‹_›, accepts_pure h⟩
      · obtain ⟨_, h, -⟩ := accepts_bind h
        exact absurd h accepts_throw
    dsimp only at h
    split at h
    · rename_i c' rest hop hargs
      split at h
      · rename_i hc
        obtain ⟨hreach, rfl⟩ := hend h
        exact ⟨inst, rfl, hi, hreach, hop, by rw [hargs, List.head?_cons, hc]⟩
      · obtain ⟨_, h, -⟩ := accepts_bind h
        exact absurd h accepts_throw
    · rename_i c' stored hop hargs
      split at h
      · rename_i hc
        obtain ⟨hreach, rfl⟩ := hend h
        simp only [Bool.and_eq_true, decide_eq_true_eq, bne_iff_ne] at hc
        refine ⟨inst, rfl, hi, hreach, hop, by rw [hargs, List.head?_cons, hc.1], ?_⟩
        rw [hargs, List.getElem?_cons_succ, ← List.head?_eq_getElem?]
        exact hc.2
      · obtain ⟨_, h, -⟩ := accepts_bind h
        exact absurd h accepts_throw
    · rename_i proto hop
      obtain ⟨hreach, rfl⟩ := hend h
      exact ⟨inst, rfl, hi, hreach, proto, hop⟩
    · obtain ⟨_, h, -⟩ := accepts_bind h
      exact absurd h accepts_throw

theorem cellUse_accepts_of {c : ValueId} {u : CellUse} {inst : Inst}
    (hi : f.insts.get? u.inst = some inst) (hreach : d.isReachable inst.block = true)
    (hfits : u.Fits c inst) : Accepts (f.cellUse d c (.inst u.inst)) u := by
  unfold cellUse
  refine accepts_read (inst_eq_ok.2 hi) ?_
  cases u with
  | load i =>
    obtain ⟨hop, hhead⟩ := hfits
    obtain ⟨rest, hargs⟩ := List.head?_eq_some_iff.1 hhead
    simp only [hop, hargs, hreach, if_true]
    rfl
  | store i =>
    obtain ⟨hop, hhead, hstored⟩ := hfits
    obtain ⟨stored, hargs⟩ := List.head?_eq_some_iff.1 hhead
    rw [hargs, List.getElem?_cons_succ, ← List.head?_eq_getElem?] at hstored
    simp only [hop, hargs, hreach, bne_iff_ne.2 hstored, decide_true, Bool.and_true, if_true]
    rfl
  | capture i =>
    obtain ⟨proto, hop⟩ := hfits
    simp only [hop, hreach, if_true]
    rfl

theorem isIn_of_uses (hf : f.Sound) {cell : Cell} {inst : Inst} {val : Value}
    (hi : f.insts.get? cell.creation = some inst) (hop : inst.opcode = .newRef)
    (hres : inst.result = some cell.value) (hargs : inst.operands.head? = some cell.initial)
    (hblock : inst.block = cell.home) (hhome : d.isReachable cell.home = true)
    (hval : f.values.get? cell.value = some val)
    (huses : List.Forall₂ (fun u use => Accepts (f.cellUse d cell.value u.1) use) val.users
      cell.uses) : cell.IsIn f d := by
  have hcounted := hf.uses.counted _ val hval
  have hheld : ∀ user, 0 < f.held cell.value user → ∃ use ∈ cell.uses,
      Accepts (f.cellUse d cell.value user) use := by
    intro user hpos
    rw [← hf.uses.uses _ val user hval] at hpos
    have hmem := (Value.mem_users_iff hcounted).2 ⟨rfl, hpos⟩
    obtain ⟨use, huse, haccepts⟩ := exists_of_forall₂ huses hmem
    exact ⟨use, huse, haccepts⟩
  refine ⟨⟨inst, hi, hop, hres, hargs, hblock⟩, hhome, fun u hu => ?_, fun j other hj hmem => ?_,
    fun p phi q hp hq => ?_, ?_⟩
  · obtain ⟨⟨user, n⟩, he, haccepts⟩ := exists_of_forall₂ huses.flip hu
    obtain ⟨other, rfl, hother, hreach, hfits⟩ := cellUse_accepts haccepts
    obtain ⟨hcount, hpos⟩ := (Value.mem_users_iff hcounted).1 he
    rw [hf.uses.uses _ val _ hval, held_inst, hother] at hcount
    have hmem : 0 < other.operands.count cell.value := Nat.lt_of_lt_of_eq hpos hcount.symm
    exact ⟨other, hother, hreach, List.count_pos_iff.1 hmem, hfits⟩
  · obtain ⟨use, huse, haccepts⟩ := hheld (.inst j) (by
      rw [held_inst, hj]
      exact List.count_pos_iff.2 hmem)
    obtain ⟨-, heq, -⟩ := cellUse_accepts haccepts
    exact ⟨use, huse, (User.inst.inj heq).symm⟩
  · obtain ⟨use, -, haccepts⟩ := hheld (.phi p) (by
      rw [held_phi, hp]
      exact List.count_pos_iff.2 (OrderedMap.mem_values.2 ⟨q, hq⟩))
    exact accepts_throw haccepts
  · have hkeys : val.users.map (·.1) = (cell.uses.map CellUse.inst).map User.inst := by
      rw [List.map_map, ← List.forall₂_eq_eq_eq, List.forall₂_map_left_iff,
        List.forall₂_map_right_iff]
      refine huses.imp fun u use haccepts => ?_
      obtain ⟨-, heq, -⟩ := cellUse_accepts haccepts
      exact heq
    have hnodup : (val.users.map (·.1)).Nodup := OrderedMap.keys_nodup val.uses
    rw [hkeys] at hnodup
    exact hnodup.of_map _

theorem promotable_accepts_iff {captured : Bool} {i : InstId} {cell : Cell} :
    Accepts (f.promotable captured d i) cell ↔ cell.creation = i ∧ ∃ inst val,
      f.insts.get? i = some inst ∧ inst.opcode = .newRef ∧ inst.result = some cell.value ∧
      inst.operands.head? = some cell.initial ∧ inst.block = cell.home ∧
      d.isReachable cell.home = true ∧ f.values.get? cell.value = some val ∧
      Accepts (val.users.mapM fun u => f.cellUse d cell.value u.1) cell.uses ∧
      (cell.uses.any CellUse.isCapture = true →
        captured = true ∧ f.capturesAreFinal d cell.uses = .ok true) := by
  constructor
  · -- Two ways through the checks accept, with captures and without; on the others something
    -- throws.
    intro h
    unfold promotable at h
    obtain ⟨inst, hinst, h⟩ := accepts_bind h
    have hi := inst_eq_ok.1 (accepts_lift hinst)
    dsimp only at h
    split at h
    · rename_i value initial rest hop hres hargs
      split at h
      · rename_i hreach
        obtain ⟨val, hval, h⟩ := accepts_bind h
        obtain ⟨uses, huses, h⟩ := accepts_bind h
        have hval' := value_eq_ok.1 (accepts_lift hval)
        have hhead : inst.operands.head? = some initial := by rw [hargs, List.head?_cons]
        split at h
        · split at h
          · rename_i hcaptured
            obtain ⟨final, hfinal, h⟩ := accepts_bind h
            split at h
            · rename_i hyes
              obtain rfl := accepts_pure h
              exact ⟨rfl, inst, val, hi, hop, hres, hhead, rfl, hreach, hval', huses,
                fun _ => ⟨hcaptured, hyes ▸ accepts_lift hfinal⟩⟩
            · obtain ⟨_, h, -⟩ := accepts_bind h
              exact absurd h accepts_throw
          · obtain ⟨_, h, -⟩ := accepts_bind h
            exact absurd h accepts_throw
        · rename_i hnone
          obtain rfl := accepts_pure h
          exact ⟨rfl, inst, val, hi, hop, hres, hhead, rfl, hreach, hval', huses,
            fun hcapture => absurd hcapture hnone⟩
      · obtain ⟨_, h, -⟩ := accepts_bind h
        exact absurd h accepts_throw
    · exact absurd h accepts_throw
  · rintro ⟨rfl, inst, val, hi, hop, hres, hhead, hblock, hreach, hval, huses, hfinal⟩
    obtain ⟨rest, hargs⟩ : ∃ rest, inst.operands = cell.initial :: rest :=
      List.head?_eq_some_iff.1 hhead
    unfold promotable
    refine accepts_read (inst_eq_ok.2 hi) ?_
    rw [hop, hres, hargs, hblock]
    dsimp only
    rw [if_pos hreach]
    refine accepts_read (value_eq_ok.2 hval) (accepts_bind_of huses ?_)
    split
    · rename_i hcapture
      obtain ⟨hcaptured, hyes⟩ := hfinal hcapture
      rw [if_pos hcaptured]
      exact accepts_read hyes rfl
    · rfl

theorem promotable_accepts (hf : f.Sound) {captured : Bool} {i : InstId} {cell : Cell}
    (h : Accepts (f.promotable captured d i) cell) : cell.creation = i ∧ cell.IsIn f d := by
  obtain ⟨rfl, inst, val, hi, hop, hres, hhead, hblock, hreach, hval, huses, -⟩ :=
    promotable_accepts_iff.1 h
  exact ⟨rfl, isIn_of_uses hf hi hop hres hhead hblock hreach hval (accepts_mapM huses)⟩

theorem cellUse_answers (d : Dominance) (c : ValueId) {user : User} (hu : 0 < f.held c user) :
    Answers (f.cellUse d c user) := by
  cases user with
  | phi p => exact answers_throw _
  | inst i =>
    cases hi : f.insts.get? i with
    | none => simp [held_inst, hi] at hu
    | some inst =>
      refine answers_read (inst_eq_ok.2 hi) ?_
      have hend : ∀ access : CellUse, Answers (do
          unless d.isReachable inst.block do throw .unreachable
          return access) := by
        intro access
        dsimp only
        split
        · exact answers_pure _
        · exact answers_throw_bind _ _
      dsimp only
      split
      · split
        · exact hend _
        · exact answers_throw_bind _ _
      · split
        · exact hend _
        · exact answers_throw_bind _ _
      · exact hend _
      · exact answers_throw_bind _ _

theorem capturesAreFinal_ok (hf : f.Linked fun _ => False) (d : Dominance) {uses : List CellUse}
    (hu : ∀ u ∈ uses, f.insts.contains u.inst = true) :
    ∃ final, f.capturesAreFinal d uses = .ok final := by
  have hlocate : ∀ u ∈ uses, ∃ place, f.locate u.inst = .ok place := by
    intro u hmem
    obtain ⟨inst, hi⟩ := Option.isSome_iff_exists.1 (hu u hmem)
    obtain ⟨data, hb, -⟩ := hf.inst_listed _ inst hi id
    exact ⟨_, bind_eq_ok.2 ⟨inst, inst_eq_ok.2 hi, bind_eq_ok.2 ⟨data, block_eq_ok.2 hb, rfl⟩⟩⟩
  choose! place hplace using hlocate
  have hlocated : uses.mapM (fun u => do return (u, ← f.locate u.inst)) =
      .ok (uses.map fun u => (u, place u)) :=
    mapM_ok fun u hmem => bind_eq_ok.2 ⟨place u, hplace u hmem, rfl⟩
  exact ⟨_, bind_eq_ok.2 ⟨_, hlocated, rfl⟩⟩

theorem promotable_answers (hf : f.Sound) (captured : Bool) (d : Dominance) {i : InstId}
    (hi : f.insts.contains i = true) : Answers (f.promotable captured d i) := by
  obtain ⟨inst, hinst⟩ := Option.isSome_iff_exists.1 hi
  unfold promotable
  refine answers_read (inst_eq_ok.2 hinst) ?_
  dsimp only
  split
  · rename_i value initial rest hop hres hargs
    obtain ⟨val, hval, -⟩ := hf.linked.inst_result i inst value hinst hres
    split
    · refine answers_read (value_eq_ok.2 hval) (answers_bind (answers_mapM fun u hu => ?_)
        fun uses huses => ?_)
      · obtain ⟨hcount, hpos⟩ := (Value.mem_users_iff (hf.uses.counted _ val hval)).1 hu
        refine cellUse_answers d value ?_
        rw [← hf.uses.uses _ val _ hval, hcount]
        exact hpos
      · split
        · split
          · have hlive : ∀ u ∈ uses, f.insts.contains u.inst = true := by
              intro u hu
              obtain ⟨_, -, haccepts⟩ := exists_of_forall₂ (accepts_mapM huses).flip hu
              obtain ⟨other, -, hother, -⟩ := cellUse_accepts haccepts
              exact Option.isSome_iff_exists.2 ⟨other, hother⟩
            obtain ⟨final, hfinal⟩ := capturesAreFinal_ok hf.linked d hlive
            refine answers_read hfinal ?_
            split
            · exact answers_pure _
            · exact answers_throw_bind _ _
          · exact answers_throw_bind _ _
        · exact answers_pure _
    · exact answers_throw_bind _ _
  · exact answers_throw _

end Func

end Midend
