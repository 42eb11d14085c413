import Midend.Proofs.Edit.Links

namespace Midend

def Inst.replace (old new : ValueId) (i : Inst) : Inst :=
  { i with operands := i.operands.map (Func.swap old new) }

def Phi.replace (old new : ValueId) (p : Phi) : Phi :=
  { p with sources := p.sources.mapValues (Func.swap old new) }

namespace Func

variable {f g : Func} {old new : ValueId}

theorem swap_self (v w : ValueId) : swap v v w = w := by
  unfold swap
  split
  · exact Eq.symm ‹_›
  · rfl

theorem map_swap_of_notMem {vs : List ValueId} (h : old ∉ vs) : vs.map (swap old new) = vs := by
  refine (List.map_congr_left fun v hv => ?_).trans vs.map_id
  have hne : v ≠ old := fun heq => h (heq ▸ hv)
  simp [swap, hne]

theorem inst_replace_of_holds {inst : Inst} (h : inst.holds old = 0) :
    inst.replace old new = inst := by
  have hno : old ∉ inst.operands := List.count_eq_zero.1 h
  rw [Inst.replace, map_swap_of_notMem hno]

theorem phi_replace_of_holds {phi : Phi} (h : phi.holds old = 0) : phi.replace old new = phi := by
  have hno : old ∉ phi.sources.values := List.count_eq_zero.1 h
  have hentries : (phi.sources.mapValues (swap old new)).entries = phi.sources.entries := by
    refine (List.map_congr_left fun e he => ?_).trans (List.map_id _)
    have hne : e.2 ≠ old := fun heq => hno (heq ▸ List.mem_map_of_mem he)
    simp [swap, hne]
  rw [Phi.replace, OrderedMap.ext hentries]

/-- Every slot holds `new` where it held `old`. -/
structure Replaced (old new : ValueId) (f g : Func) : Prop where
  shape : f.SameShape g
  uses : g.UsesAgree
  insts : ∀ i, g.insts.get? i = (f.insts.get? i).map (·.replace old new)
  phis : ∀ p, g.phis.get? p = (f.phis.get? p).map (·.replace old new)
  size : g.values.size = f.values.size

/-- Only the slots of some users were replaced so far. -/
structure ReplacedIn (users : List User) (old new : ValueId) (f g : Func) : Prop where
  shape : f.SameShape g
  uses : g.UsesAgree
  insts : ∀ i, g.insts.get? i =
    (f.insts.get? i).map fun x => if .inst i ∈ users then x.replace old new else x
  phis : ∀ p, g.phis.get? p =
    (f.phis.get? p).map fun x => if .phi p ∈ users then x.replace old new else x
  size : g.values.size = f.values.size

theorem ReplacedIn.refl (h : f.UsesAgree) : ReplacedIn [] old new f f :=
  ⟨.refl f, h, fun i => by simp, fun p => by simp, rfl⟩

theorem withUser_insts (f : Func) (old new : ValueId) (user : User) (count : Nat) (i : InstId) :
    (f.withUser old new user count).insts.get? i =
      (f.insts.get? i).map fun x => if .inst i = user then x.replace old new else x := by
  cases user with
  | phi p => simp [withUser]
  | inst j =>
    simp only [withUser, modifyValue_insts, Arena.get?_modify, User.inst.injEq]
    by_cases hij : i = j
    · simp [hij, Inst.replace]
    · simp [hij]

theorem withUser_phis (f : Func) (old new : ValueId) (user : User) (count : Nat) (p : PhiId) :
    (f.withUser old new user count).phis.get? p =
      (f.phis.get? p).map fun x => if .phi p = user then x.replace old new else x := by
  cases user with
  | inst i => simp [withUser]
  | phi q =>
    simp only [withUser, modifyValue_phis, Arena.get?_modify, User.phi.injEq]
    by_cases hpq : p = q
    · simp [hpq, Phi.replace]
    · simp [hpq]

theorem ReplacedIn.step {users : List User} {user : User} (h : ReplacedIn users old new f g)
    (hne : old ≠ new) {val : Value} (hnew : g.values.get? new = some val) (hu : user ∉ users) :
    ReplacedIn (user :: users) old new f (g.withUser old new user (g.held old user)) where
  shape := h.shape.trans (.withUser _ _ _ _ _)
  uses := h.uses.withUser hne hnew
  insts i := by
    rw [withUser_insts, h.insts, Option.map_map]
    congr 1
    funext x
    by_cases hi : (.inst i : User) = user
    · subst hi
      simp [hu]
    · simp [hi]
  phis p := by
    rw [withUser_phis, h.phis, Option.map_map]
    congr 1
    funext x
    by_cases hp : (.phi p : User) = user
    · subst hp
      simp [hu]
    · simp [hp]
  size := by
    rw [withUser_values, Arena.size_modify, Arena.size_modify, h.size]

theorem ReplacedIn.held_eq {users : List User} {user : User} (h : ReplacedIn users old new f g)
    (hu : user ∉ users) (v : ValueId) : g.held v user = f.held v user := by
  cases user with
  | inst i =>
    rw [held_inst, held_inst, h.insts, Option.map_map]
    simp [hu, Function.comp_def]
  | phi p =>
    rw [held_phi, held_phi, h.phis, Option.map_map]
    simp [hu, Function.comp_def]

/-- Users that hold nothing of `old` are as good as replaced. -/
theorem ReplacedIn.replaced {users : List User} (h : ReplacedIn users old new f g)
    (hall : ∀ u, u ∉ users → f.held old u = 0) : Replaced old new f g where
  shape := h.shape
  uses := h.uses
  size := h.size
  insts i := by
    rw [h.insts]
    cases hi : f.insts.get? i with
    | none => rfl
    | some inst =>
      simp only [Option.map_some, Option.some.injEq]
      split
      · rfl
      · rename_i hu
        have hzero := hall _ hu
        rw [held_inst, hi] at hzero
        exact (inst_replace_of_holds hzero).symm
  phis p := by
    rw [h.phis]
    cases hp : f.phis.get? p with
    | none => rfl
    | some phi =>
      simp only [Option.map_some, Option.some.injEq]
      split
      · rfl
      · rename_i hu
        have hzero := hall _ hu
        rw [held_phi, hp] at hzero
        exact (phi_replace_of_holds hzero).symm

theorem inst_replace_self (v : ValueId) : (fun inst : Inst => inst.replace v v) = id := by
  funext inst
  simp [Inst.replace, funext (swap_self v)]

theorem phi_replace_self (v : ValueId) : (fun phi : Phi => phi.replace v v) = id := by
  funext phi
  have hentries : (phi.sources.mapValues (swap v v)).entries = phi.sources.entries := by
    simp [OrderedMap.mapValues, swap_self]
  rw [Phi.replace, OrderedMap.ext hentries]
  rfl

theorem Replaced.refl (h : f.UsesAgree) (v : ValueId) : Replaced v v f f where
  shape := .refl f
  uses := h
  size := rfl
  insts i := by
    rw [inst_replace_self, Option.map_id_fun]
    rfl
  phis p := by
    rw [phi_replace_self, Option.map_id_fun]
    rfl

end Func

namespace Edit

open Func

variable {f g : Func} {old new : ValueId}

/-- A user with a slot that holds something is live, so replacing in it succeeds and counts its
slots. -/
theorem replaceIn_apply (new : ValueId) {user : User} (hu : 0 < f.held old user) (count : Nat) :
    (replaceIn old new user count).apply f =
      (.ok (f.held old user), f.withUser old new user count) := by
  cases user with
  | inst i =>
    cases hi : f.insts.get? i with
    | none => simp [held_inst, hi] at hu
    | some inst =>
      simp only [replaceIn, apply_bind, apply_query, Func.inst_eq_ok.2 hi, apply_modify, apply_pure,
        held_inst, hi]
      rfl
  | phi p =>
    cases hp : f.phis.get? p with
    | none => simp [held_phi, hp] at hu
    | some phi =>
      simp only [replaceIn, apply_bind, apply_query, Func.phi_eq_ok.2 hp, apply_modify, apply_pure,
        held_phi, hp]
      rfl

theorem foldlM_replaceIn (hne : old ≠ new) {val : Value} (hnew : f.values.get? new = some val)
    (us : List (User × Nat)) {done : List User} (k : Nat) (h : ReplacedIn done old new f g)
    (hcount : ∀ e ∈ us, f.held old e.1 = e.2 ∧ 0 < e.2) (hnodup : (us.map (·.1)).Nodup)
    (hdisj : ∀ e ∈ us, e.1 ∉ done) :
    ∃ g', (us.foldlM (fun (n : Nat) (u : User × Nat) =>
        return n + (← replaceIn old new u.1 u.2)) k : Edit Nat).apply g =
          (.ok (k + (us.map (·.2)).foldr (· + ·) 0), g') ∧
      ReplacedIn ((us.map (·.1)).reverse ++ done) old new f g' := by
  induction us generalizing g done k with
  | nil => exact ⟨g, rfl, h⟩
  | cons e us ih =>
    obtain ⟨hcount₀, hpos⟩ := hcount e List.mem_cons_self
    have hdone : e.1 ∉ done := hdisj e List.mem_cons_self
    have hheld : g.held old e.1 = e.2 := (h.held_eq hdone old).trans hcount₀
    obtain ⟨val', hval', -⟩ := h.shape.symm.get?_value hnew
    have hrun := replaceIn_apply new (hheld ▸ hpos) e.2
    have hstep := h.step hne hval' hdone
    rw [hheld] at hrun hstep
    obtain ⟨hnotin, hnodup⟩ := List.nodup_cons.1 hnodup
    obtain ⟨g', hrest, hrep⟩ := ih (k + e.2) hstep
      (fun e' he' => hcount e' (List.mem_cons_of_mem _ he')) hnodup (by
        intro e' he' hmem
        rcases List.mem_cons.1 hmem with heq | hmem
        · exact hnotin (List.mem_map.2 ⟨e', he', heq⟩)
        · exact hdisj e' (List.mem_cons_of_mem _ he') hmem)
    refine ⟨g', ?_, by simpa using hrep⟩
    rw [List.foldlM_cons, apply_bind, apply_bind, hrun, List.map_cons, List.foldr_cons,
      ← Nat.add_assoc]
    exact hrest

theorem replaceAllUses_apply_of_ne (h : f.UsesAgree) (hne : old ≠ new) {val data : Value}
    (hnew : f.values.get? new = some val) (hold : f.values.get? old = some data) :
    ∃ g, (replaceAllUses old new).apply f = (.ok data.useCount, g) ∧ Replaced old new f g := by
  have hc := h.counted old data hold
  have hkeys : (data.users.map (·.1)).Nodup := OrderedMap.keys_nodup data.uses
  obtain ⟨g, hrun, hrep⟩ := foldlM_replaceIn hne hnew data.users 0 (.refl h)
    (fun e he => by
      obtain ⟨huse, hpos⟩ := (Value.mem_users_iff hc).1 he
      exact ⟨(h.uses old data e.1 hold).symm.trans huse, hpos⟩) hkeys (by simp)
  refine ⟨g, ?_, hrep.replaced fun u hu => ?_⟩
  · unfold replaceAllUses
    rw [if_neg hne, apply_bind, apply_query, Func.value_eq_ok.2 hnew]
    dsimp only
    rw [apply_bind, apply_query, Func.value_eq_ok.2 hold]
    dsimp only
    rw [hrun, Nat.zero_add]
    rfl
  rw [← h.uses old data u hold]
  -- A user with a count is in the list.
  by_contra hpos
  refine hu (List.mem_append_left _ (List.mem_reverse.2 (List.mem_map.2 ⟨(u, data.usesBy u), ?_, rfl⟩)))
  exact (Value.mem_users_iff hc).2 ⟨rfl, Nat.pos_of_ne_zero hpos⟩

theorem replaceAllUses_apply (h : f.UsesAgree) {val data : Value}
    (hnew : f.values.get? new = some val) (hold : f.values.get? old = some data) :
    ∃ n g, (replaceAllUses old new).apply f = (.ok n, g) ∧ Replaced old new f g := by
  by_cases hne : old = new
  · subst hne
    exact ⟨0, f, by simp [replaceAllUses], .refl h old⟩
  · exact ⟨data.useCount, replaceAllUses_apply_of_ne h hne hnew hold⟩

theorem replaceAllUses_yields (h : f.UsesAgree) (old new : ValueId) :
    (replaceAllUses old new).Yields f fun _ g =>
      (old = new ∨ ∃ val, f.values.get? new = some val) ∧ Replaced old new f g := by
  by_cases hne : old = new
  · subst hne
    exact .inr ⟨0, f, by simp [replaceAllUses], .inl rfl, .refl h old⟩
  cases hnew : f.values.get? new with
  | none =>
    refine .inl ⟨.noValue new, ?_⟩
    simp [replaceAllUses, hne, apply_bind, Func.value, hnew]
  | some val =>
    cases hold : f.values.get? old with
    | none =>
      refine .inl ⟨.noValue old, ?_⟩
      simp [replaceAllUses, hne, apply_bind, Func.value, hnew, hold]
    | some data =>
      obtain ⟨n, g, hrun, hr⟩ := replaceAllUses_apply h hnew hold
      exact .inr ⟨n, g, hrun, .inr ⟨val, rfl⟩, hr⟩

end Edit

end Midend
