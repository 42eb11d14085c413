import Midend.Proofs.Edit.Steps

namespace Midend.Func

variable {f g : Func} {v : ValueId} {u user : User}

/-- How many slots of a user hold a value; a dead user has no slots. -/
def held (f : Func) (v : ValueId) (u : User) : Nat := (f.heldBy v u).getD 0

theorem held_inst (f : Func) (v : ValueId) (i : InstId) :
    f.held v (.inst i) = ((f.insts.get? i).map (·.holds v)).getD 0 := rfl

theorem held_phi (f : Func) (v : ValueId) (p : PhiId) :
    f.held v (.phi p) = ((f.phis.get? p).map (·.holds v)).getD 0 := rfl

/-- Use lists agree with slots, and no slot holds a value that was never made. -/
structure UsesAgree (f : Func) : Prop where
  uses : ∀ v val u, f.values.get? v = some val → val.usesBy u = f.held v u
  counted : ∀ v val, f.values.get? v = some val → val.Counted
  unmade : ∀ v u, f.values.size ≤ v.index → f.held v u = 0

namespace UsesAgree

theorem congr (h : f.UsesAgree) (hv : g.values = f.values)
    (hheld : ∀ v u, g.held v u = f.held v u) : g.UsesAgree := by
  refine ⟨?_, ?_, ?_⟩
  · intro v val u
    rw [hv, hheld]
    exact h.uses v val u
  · rw [hv]
    exact h.counted
  · intro v u
    rw [hv, hheld]
    exact h.unmade v u

theorem of_user (user : User) (h : f.UsesAgree) (hsize : f.values.size ≤ g.values.size)
    (hother : ∀ v u, u ≠ user → g.held v u = f.held v u)
    (hvalue : ∀ v val', g.values.get? v = some val' → ∃ val, f.values.get? v = some val ∧
      val'.Counted ∧ (∀ u, u ≠ user → val'.usesBy u = val.usesBy u) ∧
      val'.usesBy user = g.held v user)
    (hunmade : ∀ v, g.values.size ≤ v.index → g.held v user = 0) : g.UsesAgree := by
  refine ⟨?_, ?_, ?_⟩
  · intro v val' u hv
    obtain ⟨val, hval, -, hne, heq⟩ := hvalue v val' hv
    by_cases hu : u = user
    · rw [hu, heq]
    · rw [hne u hu, hother v u hu, h.uses v val u hval]
  · intro v val' hv
    obtain ⟨val, -, hc, -, -⟩ := hvalue v val' hv
    exact hc
  · intro v u hv
    by_cases hu : u = user
    · rw [hu, hunmade v hv]
    · rw [hother v u hu, h.unmade v u (Nat.le_trans hsize hv)]

theorem lt_of_get? (hv : f.values.get? v = some val) : v.index < f.values.size := by
  refine Nat.lt_of_not_le fun hle => ?_
  rw [Arena.get?_eq_none_of_size_le hle] at hv
  cases hv

end UsesAgree

theorem held_modifyInst (f : Func) (i : InstId) (d : Inst → Inst) (v : ValueId) (u : User) :
    held { f with insts := f.insts.modify i d } v u =
      if u = .inst i then ((f.insts.get? i).map fun x => (d x).holds v).getD 0 else f.held v u := by
  cases u with
  | phi p => simp [held_phi]
  | inst j =>
    rw [held_inst, held_inst, Arena.get?_modify]
    by_cases hj : j = i
    · subst hj
      simp [Function.comp_def]
    · simp [hj]

theorem held_modifyPhi (f : Func) (p : PhiId) (d : Phi → Phi) (v : ValueId) (u : User) :
    held { f with phis := f.phis.modify p d } v u =
      if u = .phi p then ((f.phis.get? p).map fun x => (d x).holds v).getD 0 else f.held v u := by
  cases u with
  | inst i => simp [held_inst]
  | phi q =>
    rw [held_phi, held_phi, Arena.get?_modify]
    by_cases hq : q = p
    · subst hq
      simp [Function.comp_def]
    · simp [hq]

@[simp]
theorem moveUse_insts (f : Func) (user : User) (old new : Option ValueId) :
    (f.moveUse user old new).insts = f.insts := by
  cases old <;> cases new <;> rfl

@[simp]
theorem moveUse_phis (f : Func) (user : User) (old new : Option ValueId) :
    (f.moveUse user old new).phis = f.phis := by
  cases old <;> cases new <;> rfl

@[simp]
theorem size_moveUse (f : Func) (user : User) (old new : Option ValueId) :
    (f.moveUse user old new).values.size = f.values.size := by
  cases old <;> cases new <;> simp [moveUse]

theorem get?_moveUse (f : Func) (user : User) (old new : Option ValueId) (v : ValueId) :
    (f.moveUse user old new).values.get? v = (f.values.get? v).map fun val =>
      let val := if old = some v then val.dropUse user else val
      if new = some v then val.addUses user 1 else val := by
  have hadd : ∀ g : Func, (g.moveUse user none new).values.get? v =
      (g.values.get? v).map fun val => if new = some v then val.addUses user 1 else val := by
    intro g
    cases new with
    | none => simp [moveUse]
    | some n =>
      by_cases hn : v = n
      · simp [moveUse, hn]
      · simp [moveUse, hn, Ne.symm hn]
  cases old with
  | none => exact hadd f
  | some o =>
    have hdrop : (f.modifyValue o (·.dropUse user)).values.get? v =
        (f.values.get? v).map fun val => if some o = some v then val.dropUse user else val := by
      by_cases ho : v = o
      · simp [ho]
      · simp [ho, Ne.symm ho]
    exact (hadd _).trans ((congrArg _ hdrop).trans (Option.map_map ..))

/-- Moving a use agrees with exchanging the contents of one slot. -/
theorem UsesAgree.moveUse (h : f.UsesAgree) {old new : Option ValueId}
    (hvalues : g.values = f.values) (hold : ∀ o, old = some o → 0 < f.held o user)
    (hnew : ∀ n, new = some n → ∃ val, f.values.get? n = some val)
    (hother : ∀ v u, u ≠ user → g.held v u = f.held v u)
    (hheld : ∀ v, g.held v user + (if old = some v then 1 else 0) =
      f.held v user + if new = some v then 1 else 0) : (g.moveUse user old new).UsesAgree := by
  have hsame : ∀ v u, (g.moveUse user old new).held v u = g.held v u := by
    intro v u
    cases u <;> simp [held_inst, held_phi]
  refine of_user user h (by simp [hvalues]) ?_ ?_ ?_
  · intro v u hu
    rw [hsame, hother v u hu]
  · intro v val' hv
    rw [get?_moveUse, hvalues] at hv
    obtain ⟨val, hval, rfl⟩ := Option.map_eq_some_iff.1 hv
    have hc := h.counted v val hval
    have huse := h.uses v val user hval
    have hdelta := hheld v
    have hpos := hold v
    refine ⟨val, hval, ?_, ?_, ?_⟩
    · have hc' : (if old = some v then val.dropUse user else val).Counted := by
        split
        · exact hc.dropUse user
        · exact hc
      dsimp only
      split
      · exact hc'.addUses user 1
      · exact hc'
    · intro u hu
      split <;> split <;> simp [hu]
    · rw [hsame]
      by_cases ho : old = some v <;> by_cases hn : new = some v <;>
        simp only [ho, hn, reduceIte, Value.usesBy_addUses, Value.usesBy_dropUse, forall_const] at hdelta hpos ⊢ <;>
        omega
  · intro v hv
    rw [size_moveUse, hvalues] at hv
    have hz := h.unmade v user hv
    have hdelta := hheld v
    have hne : new ≠ some v := by
      intro hn
      obtain ⟨val, hval⟩ := hnew v hn
      have := lt_of_get? hval
      omega
    rw [hsame]
    rw [if_neg hne] at hdelta
    omega

theorem held_source_pos {p : PhiId} {phi : Phi} {pred : BlockId}
    (hp : f.phis.get? p = some phi) {o : ValueId} (ho : phi.source pred = some o) :
    0 < f.held o (.phi p) := by
  rw [held_phi, hp]
  exact List.count_pos_iff.2 (OrderedMap.mem_values.2 ⟨pred, ho⟩)

theorem held_operand_pos {i : InstId} {inst : Inst} (hi : f.insts.get? i = some inst) {o : ValueId}
    (ho : o ∈ inst.operands) : 0 < f.held o (.inst i) := by
  rw [held_inst, hi]
  exact List.count_pos_iff.2 ho

theorem source_of_held {p : PhiId} (h : 0 < f.held v (.phi p)) :
    ∃ phi pred, f.phis.get? p = some phi ∧ phi.source pred = some v := by
  rw [held_phi] at h
  cases hp : f.phis.get? p with
  | none => simp [hp] at h
  | some phi =>
    rw [hp] at h
    obtain ⟨pred, hpred⟩ := OrderedMap.mem_values.1 (List.count_pos_iff.1 h)
    exact ⟨phi, pred, rfl, hpred⟩

theorem operand_of_held {i : InstId} (h : 0 < f.held v (.inst i)) :
    ∃ inst, f.insts.get? i = some inst ∧ v ∈ inst.operands := by
  rw [held_inst] at h
  cases hi : f.insts.get? i with
  | none => simp [hi] at h
  | some inst =>
    rw [hi] at h
    exact ⟨inst, rfl, List.count_pos_iff.1 h⟩

theorem UsesAgree.withSource (h : f.UsesAgree) {p : PhiId} {phi : Phi} {pred : BlockId}
    {v : ValueId} {val : Value} (hp : f.phis.get? p = some phi)
    (hv : f.values.get? v = some val) : (f.withSource p (phi.source pred) pred v).UsesAgree := by
  refine h.moveUse rfl (fun o ho => held_source_pos hp ho) (by rintro n ⟨⟩; exact ⟨val, hv⟩) ?_ ?_
  · intro w u hu
    rw [held_modifyPhi, if_neg hu]
  · intro w
    rw [held_modifyPhi, if_pos rfl, held_phi, hp]
    have hcount := OrderedMap.count_values_insert phi.sources pred v w
    by_cases ho : phi.sources.get? pred = some w <;>
      simpa [Phi.holds, Phi.source, ho] using hcount

theorem UsesAgree.withoutSource (h : f.UsesAgree) {p : PhiId} {phi : Phi} {pred : BlockId}
    (hp : f.phis.get? p = some phi) : (f.withoutSource p (phi.source pred) pred).UsesAgree := by
  refine h.moveUse rfl (fun o ho => held_source_pos hp ho) (by rintro n ⟨⟩) ?_ ?_
  · intro w u hu
    rw [held_modifyPhi, if_neg hu]
  · intro w
    rw [held_modifyPhi, if_pos rfl, held_phi, hp]
    have hcount := OrderedMap.count_values_erase phi.sources pred w
    by_cases ho : phi.sources.get? pred = some w <;>
      simpa [Phi.holds, Phi.source, ho] using hcount

theorem count_set {xs : List ValueId} {index : Nat} {old : ValueId} (h : xs[index]? = some old)
    (v w : ValueId) :
    (xs.set index v).count w + (if old = w then 1 else 0) = xs.count w + if v = w then 1 else 0 := by
  induction xs generalizing index with
  | nil => simp at h
  | cons x xs ih =>
    cases index with
    | zero =>
      obtain rfl : x = old := by simpa using h
      simp [List.count_cons]
      omega
    | succ index =>
      have := ih (by simpa using h)
      simp only [List.set_cons_succ, List.count_cons]
      omega

theorem UsesAgree.withOperand (h : f.UsesAgree) {i : InstId} {inst : Inst} {index : Nat}
    {old v : ValueId} {val : Value} (hi : f.insts.get? i = some inst)
    (ho : inst.operands[index]? = some old) (hv : f.values.get? v = some val) :
    (f.withOperand i index old v).UsesAgree := by
  refine h.moveUse rfl ?_ (by rintro n ⟨⟩; exact ⟨val, hv⟩) ?_ ?_
  · rintro o ⟨⟩
    exact held_operand_pos hi (List.mem_of_getElem? ho)
  · intro w u hu
    rw [held_modifyInst, if_neg hu]
  · intro w
    rw [held_modifyInst, if_pos rfl, held_inst, hi]
    simpa [Inst.holds] using count_set ho v w

theorem count_map_swap {old new : ValueId} (hne : old ≠ new) (xs : List ValueId) (v : ValueId) :
    (xs.map (swap old new)).count v =
      if v = old then 0 else xs.count v + if v = new then xs.count old else 0 := by
  induction xs with
  | nil => simp
  | cons x xs ih =>
    rw [List.map_cons, List.count_cons, ih, List.count_cons, List.count_cons]
    unfold swap
    grind

theorem held_withUser (f : Func) {old new : ValueId} (hne : old ≠ new) (user : User) (count : Nat)
    (v : ValueId) (u : User) :
    (f.withUser old new user count).held v u =
      if u = user then
        if v = old then 0 else f.held v u + if v = new then f.held old u else 0
      else f.held v u := by
  cases user with
  | inst i =>
    refine (held_modifyInst f i _ v u).trans ?_
    split
    · subst u
      rw [held_inst, held_inst]
      cases f.insts.get? i with
      | none => simp
      | some inst => exact count_map_swap hne inst.operands v
    · rfl
  | phi p =>
    refine (held_modifyPhi f p _ v u).trans ?_
    split
    · subst u
      rw [held_phi, held_phi]
      cases f.phis.get? p with
      | none => simp
      | some phi =>
        simp only [Option.map_some, Option.getD_some, Phi.holds, OrderedMap.values_mapValues]
        exact count_map_swap hne phi.sources.values v
    · rfl

theorem withUser_values (f : Func) (old new : ValueId) (user : User) (count : Nat) :
    (f.withUser old new user count).values =
      (f.values.modify old (·.dropUses user)).modify new (·.addUses user count) := by
  cases user <;> rfl

theorem UsesAgree.withUser (h : f.UsesAgree) {old new : ValueId} (hne : old ≠ new) {user : User}
    {val : Value} (hnew : f.values.get? new = some val) :
    (f.withUser old new user (f.held old user)).UsesAgree := by
  refine of_user user h (by simp [withUser_values]) ?_ ?_ ?_
  · intro v u hu
    rw [held_withUser f hne, if_neg hu]
  · intro v val' hv
    rw [withUser_values, Arena.get?_modify, Arena.get?_modify] at hv
    rw [held_withUser f hne, if_pos rfl]
    by_cases ho : v = old
    · subst ho
      rw [if_neg hne, if_pos rfl] at hv
      obtain ⟨w, hw, rfl⟩ := Option.map_eq_some_iff.1 hv
      refine ⟨w, hw, (h.counted v w hw).dropUses user, ?_, ?_⟩
      · intro u hu
        simp [hu]
      · simp
    · rw [if_neg ho] at hv
      rw [if_neg ho]
      by_cases hn : v = new
      · subst hn
        rw [if_pos rfl] at hv
        obtain ⟨w, hw, rfl⟩ := Option.map_eq_some_iff.1 hv
        refine ⟨w, hw, (h.counted v w hw).addUses user _, ?_, ?_⟩
        · intro u hu
          simp [hu]
        · rw [if_pos rfl, Value.usesBy_addUses, if_pos rfl, h.uses v w user hw]
      · rw [if_neg hn] at hv
        exact ⟨val', hv, h.counted v val' hv, fun u hu => rfl, by
          rw [if_neg hn, h.uses v val' user hv]; rfl⟩
  · intro v hv
    have hsize : f.values.size ≤ v.index := by simpa [withUser_values] using hv
    have hne' : v ≠ new := by
      rintro rfl
      have := lt_of_get? hnew
      omega
    rw [held_withUser f hne, if_pos rfl, if_neg hne', h.unmade v user hsize]
    split <;> rfl

theorem UsesAgree.release (h : f.UsesAgree) {vs : List ValueId}
    (hvs : ∀ v, f.held v user = vs.count v) (hvalues : g.values = f.values)
    (hheld : ∀ v u, g.held v u = if u = user then 0 else f.held v u) :
    (g.releaseUses user vs).UsesAgree := by
  have hsame : ∀ v u, (g.releaseUses user vs).held v u = g.held v u := by
    intro v u
    rw [releaseUses_eq]
    rfl
  have hsize : (g.releaseUses user vs).values.size = f.values.size := by
    rw [releaseUses_eq, ← hvalues]
    exact size_foldl_modify (fun _ val => val.dropUses user) id vs g.values
  refine of_user user h (Nat.le_of_eq hsize.symm) ?_ ?_ ?_
  · intro v u hu
    rw [hsame, hheld, if_neg hu]
  · intro v val' hv
    rw [get?_releaseUses, hvalues] at hv
    obtain ⟨val, hval, rfl⟩ := Option.map_eq_some_iff.1 hv
    rw [hsame, hheld, if_pos rfl]
    split
    · exact ⟨val, hval, (h.counted v val hval).dropUses user, fun u hu => by simp [hu], by simp⟩
    · rename_i hmem
      refine ⟨val, hval, h.counted v val hval, fun u hu => rfl, ?_⟩
      rw [h.uses v val user hval, hvs, List.count_eq_zero.2 hmem]
  · intro v _
    rw [hsame, hheld, if_pos rfl]

theorem UsesAgree.eraseValue (h : f.UsesAgree) (v : ValueId) :
    UsesAgree { f with values := f.values.erase v } := by
  have hget : ∀ w val, (f.values.erase v).get? w = some val → f.values.get? w = some val := by
    intro w val hw
    rw [Arena.get?_erase] at hw
    split at hw
    · cases hw
    · exact hw
  refine ⟨fun w val u hw => h.uses w val u (hget w val hw), fun w val hw =>
    h.counted w val (hget w val hw), fun w u hw => h.unmade w u ?_⟩
  simpa using hw

theorem UsesAgree.dropInst (h : f.UsesAgree) {i : InstId} {data : Inst}
    (hi : f.insts.get? i = some data) : (f.dropInst i data).UsesAgree := by
  have hrel : ({ f with insts := f.insts.erase i }.releaseUses (.inst i)
      data.operands).UsesAgree := by
    refine h.release (fun v => by rw [held_inst, hi]; rfl) rfl ?_
    intro v u
    cases u with
    | phi p => simp [held_phi]
    | inst j =>
      rw [held_inst, held_inst, Arena.get?_erase]
      by_cases hj : j = i <;> simp [hj]
  unfold Func.dropInst
  cases data.result with
  | none => exact hrel
  | some v => exact hrel.eraseValue v

theorem UsesAgree.dropPhi (h : f.UsesAgree) {p : PhiId} {data : Phi}
    (hp : f.phis.get? p = some data) : (f.dropPhi p data).UsesAgree := by
  refine UsesAgree.eraseValue ?_ data.result
  refine h.release (fun v => by rw [held_phi, hp]; rfl) rfl ?_
  intro v u
  cases u with
  | inst i => simp [held_inst]
  | phi q =>
    rw [held_phi, held_phi, Arena.get?_erase]
    by_cases hq : q = p <;> simp [hq]

theorem UsesAgree.pushValue (h : f.UsesAgree) (kind : ValueKind) (definition : Definition) :
    (f.pushValue kind definition).UsesAgree := by
  have hsame : ∀ v u, (f.pushValue kind definition).held v u = f.held v u := fun v u => rfl
  refine ⟨?_, ?_, ?_⟩
  · intro v val u hv
    rw [hsame]
    simp only [Func.pushValue, Arena.get?_push] at hv
    split at hv
    · rename_i hnext
      obtain rfl := Option.some.inj hv
      rw [h.unmade v u (by rw [hnext]; exact Nat.le_refl _)]
      rfl
    · exact h.uses v val u hv
  · intro v val hv
    simp only [Func.pushValue, Arena.get?_push] at hv
    split at hv
    · obtain rfl := Option.some.inj hv
      intro u hu
      cases hu
    · exact h.counted v val hv
  · intro v u hv
    simp only [Func.pushValue, Arena.size_push] at hv
    rw [hsame, h.unmade v u (by omega)]

theorem UsesAgree.withPhi (h : f.UsesAgree) (b : BlockId) : (f.withPhi b).UsesAgree := by
  refine (h.pushValue .value (.phi f.phis.next)).congr rfl ?_
  intro v u
  cases u with
  | inst i => rfl
  | phi p =>
    simp only [held_phi, Func.withPhi, Arena.get?_push]
    split
    · rename_i hp
      simp only [hp, Func.pushValue, Arena.get?_next]
      rfl
    · rfl

theorem UsesAgree.withTarget (h : f.UsesAgree) (term : InstId) (old new : BlockId) :
    (f.withTarget term old new).UsesAgree := by
  refine h.congr rfl fun v u => ?_
  refine (held_modifyInst f term _ v u).trans ?_
  split
  · subst u
    rfl
  · rfl

theorem usesBy_foldl_addUses (user other : User) (vs : List ValueId) (val : Value) :
    (vs.foldl (fun val _ => val.addUses user 1) val).usesBy other =
      val.usesBy other + if other = user then vs.length else 0 := by
  induction vs generalizing val with
  | nil => simp
  | cons v vs ih =>
    rw [List.foldl_cons, ih, Value.usesBy_addUses, List.length_cons]
    split <;> omega

theorem counted_foldl_addUses (user : User) (vs : List ValueId) {val : Value} (h : val.Counted) :
    (vs.foldl (fun val _ => val.addUses user 1) val).Counted := by
  induction vs generalizing val with
  | nil => exact h
  | cons v vs ih => exact ih (h.addUses user 1)

theorem UsesAgree.place (h : f.UsesAgree) {b : BlockId} {position : Nat} {opcode : Opcode}
    {operands : List ValueId} (hops : ∀ v ∈ operands, ∃ val, f.values.get? v = some val) :
    (Edit.place b position opcode operands f).2.UsesAgree := by
  have hgrown : (f.withResult opcode).UsesAgree := by
    unfold Func.withResult
    split
    · exact h.pushValue _ _
    · exact h
  have hle : f.values.size ≤ (f.withResult opcode).values.size := by
    unfold Func.withResult
    split
    · simp [Func.pushValue]
    · exact Nat.le_refl _
  have hheld : ∀ v u, (Edit.place b position opcode operands f).2.held v u =
      if u = .inst f.insts.next then operands.count v else f.held v u := by
    intro v u
    rw [Edit.place_eq]
    cases u with
    | phi p => simp [held_phi]
    | inst j =>
      rw [held_inst, held_inst]
      simp only [Arena.get?_push]
      by_cases hj : j = f.insts.next <;> simp [hj, Inst.holds]
  have hsame : ∀ v u, (f.withResult opcode).held v u = f.held v u := by
    intro v u
    unfold Func.withResult
    split <;> rfl
  refine of_user (.inst f.insts.next) hgrown ?_ ?_ ?_ ?_
  · rw [Edit.place_eq]
    exact Nat.le_of_eq (size_foldl_modify (fun _ val => val.addUses (.inst f.insts.next) 1) id
      operands (f.withResult opcode).values).symm
  · intro v u hu
    rw [hheld, if_neg hu, hsame]
  · intro v val' hv
    rw [Edit.place_eq] at hv
    replace hv := (get?_foldl_modify (fun _ val => val.addUses (.inst f.insts.next) 1) id operands
      (f.withResult opcode).values v).symm.trans hv
    obtain ⟨val, hval, rfl⟩ := Option.map_eq_some_iff.1 hv
    refine ⟨val, hval, counted_foldl_addUses _ _ (hgrown.counted v val hval), ?_, ?_⟩
    · intro u hu
      rw [usesBy_foldl_addUses, if_neg hu, Nat.add_zero]
    · rw [usesBy_foldl_addUses, if_pos rfl, hgrown.uses v val _ hval, hsame, held_inst,
        Arena.get?_next, hheld, if_pos rfl, List.count_eq_length_filter]
      simp [beq_eq_decide]
  · intro v hv
    rw [hheld, if_pos rfl]
    refine List.count_eq_zero.2 fun hmem => ?_
    obtain ⟨val, hval⟩ := hops v hmem
    have hlt := lt_of_get? hval
    rw [Edit.place_eq] at hv
    have hsize := size_foldl_modify (fun _ val => val.addUses (.inst f.insts.next) 1) id
      operands (f.withResult opcode).values
    replace hv := hsize ▸ hv
    omega

end Midend.Func
