import Midend.Proofs.Edit.Links

namespace Midend

theorem map_fst_filterMap {α β : Type} {as : List α} {get : α → Option β}
    (h : ∀ a ∈ as, ∃ b, get a = some b) :
    (as.filterMap fun a => (get a).map (a, ·)).map (·.1) = as := by
  induction as with
  | nil => rfl
  | cons a as ih =>
    obtain ⟨⟨b, hb⟩, has⟩ := List.forall_mem_cons.1 h
    rw [List.filterMap_cons, hb]
    simpa using ih has

namespace Func

variable {f : Func} {loose : User → Prop} {b : BlockId} {data : Block}

def phisOf (f : Func) (b : BlockId) : List (PhiId × Phi) :=
  ((f.blocks.get? b).map (·.phis)).getD [] |>.filterMap fun p => (f.phis.get? p).map (p, ·)

def instsOf (f : Func) (b : BlockId) : List (InstId × Inst) :=
  ((f.blocks.get? b).map (·.insts)).getD [] |>.filterMap fun i => (f.insts.get? i).map (i, ·)

theorem mem_phisOf {e : PhiId × Phi} : e ∈ f.phisOf b ↔
    ∃ data, f.blocks.get? b = some data ∧ e.1 ∈ data.phis ∧ f.phis.get? e.1 = some e.2 := by
  rw [phisOf, List.mem_filterMap]
  constructor
  · rintro ⟨p, hp, he⟩
    obtain ⟨phi, hphi, rfl⟩ := Option.map_eq_some_iff.1 he
    cases hb : f.blocks.get? b with
    | none => simp [hb] at hp
    | some data => exact ⟨data, rfl, by simpa [hb] using hp, hphi⟩
  · rintro ⟨data, hb, hp, hphi⟩
    exact ⟨e.1, by simpa [hb] using hp, by rw [hphi]; rfl⟩

theorem mem_instsOf {e : InstId × Inst} : e ∈ f.instsOf b ↔
    ∃ data, f.blocks.get? b = some data ∧ e.1 ∈ data.insts ∧ f.insts.get? e.1 = some e.2 := by
  rw [instsOf, List.mem_filterMap]
  constructor
  · rintro ⟨i, hi, he⟩
    obtain ⟨inst, hinst, rfl⟩ := Option.map_eq_some_iff.1 he
    cases hb : f.blocks.get? b with
    | none => simp [hb] at hi
    | some data => exact ⟨data, rfl, by simpa [hb] using hi, hinst⟩
  · rintro ⟨data, hb, hi, hinst⟩
    exact ⟨e.1, by simpa [hb] using hi, by rw [hinst]; rfl⟩

theorem Linked.map_fst_instsOf (h : f.Linked loose) (hb : f.blocks.get? b = some data) :
    (f.instsOf b).map (·.1) = data.insts := by
  rw [instsOf, hb]
  refine map_fst_filterMap fun i hi => ?_
  obtain ⟨inst, hinst, -⟩ := h.listed_inst b data i hb hi
  exact ⟨inst, hinst⟩

theorem Linked.getElem?_instsOf (h : f.Linked loose) {k : Nat} {e : InstId × Inst} :
    (f.instsOf b)[k]? = some e ↔ ∃ data, f.blocks.get? b = some data ∧
      data.insts[k]? = some e.1 ∧ f.insts.get? e.1 = some e.2 := by
  constructor
  · intro hk
    obtain ⟨data, hb, -, hi⟩ := mem_instsOf.1 (List.mem_of_getElem? hk)
    refine ⟨data, hb, ?_, hi⟩
    rw [← h.map_fst_instsOf hb, List.getElem?_map, hk, Option.map_some]
  · rintro ⟨data, hb, hk, hi⟩
    rw [← h.map_fst_instsOf hb, List.getElem?_map] at hk
    obtain ⟨e', he', heq⟩ := Option.map_eq_some_iff.1 hk
    obtain ⟨-, -, -, hi'⟩ := mem_instsOf.1 (List.mem_of_getElem? he')
    rw [heq, hi] at hi'
    rw [he', Prod.ext heq (Option.some.inj hi').symm]

theorem Linked.block_of_instsOf (h : f.Linked loose) {e : InstId × Inst} (he : e ∈ f.instsOf b) :
    e.2.block = b := by
  obtain ⟨data, hb, hmem, hi⟩ := mem_instsOf.1 he
  obtain ⟨inst, hinst, hblock⟩ := h.listed_inst b data e.1 hb hmem
  rw [Option.some.inj (hi.symm.trans hinst), hblock]

theorem Linked.exists_getElem?_instsOf (h : f.Linked fun _ => False) {i : InstId} {inst : Inst}
    (hi : f.insts.get? i = some inst) :
    ∃ k : Nat, (f.instsOf inst.block)[k]? = some (i, inst) := by
  obtain ⟨data, hb, hmem⟩ := h.inst_listed i inst hi id
  obtain ⟨k, hk⟩ := List.getElem?_of_mem hmem
  exact ⟨k, h.getElem?_instsOf.2 ⟨data, hb, hk, hi⟩⟩

theorem Linked.instsOf_nodup (h : f.Linked loose) (b : BlockId) :
    ((f.instsOf b).map (·.1)).Nodup := by
  cases hb : f.blocks.get? b with
  | none => simp [instsOf, hb]
  | some data =>
    rw [h.map_fst_instsOf hb]
    exact h.insts_nodup b data hb

theorem Linked.place_unique (h : f.Linked loose) {k j : Nat} {e e' : InstId × Inst}
    (hk : (f.instsOf b)[k]? = some e) (hj : (f.instsOf b)[j]? = some e') (heq : e.1 = e'.1) :
    k = j := by
  have hnodup := h.instsOf_nodup b
  have hk' : ((f.instsOf b).map (·.1))[k]? = some e.1 := by rw [List.getElem?_map, hk]; rfl
  have hj' : ((f.instsOf b).map (·.1))[j]? = some e.1 := by rw [List.getElem?_map, hj, heq]; rfl
  obtain ⟨hlt, -⟩ := List.getElem?_eq_some_iff.1 hk'
  exact (List.getElem?_inj hlt hnodup).1 (hk'.trans hj'.symm)

theorem Linked.eq_of_result (h : f.Linked loose) {e e' : PhiId × Phi} (he : e ∈ f.phisOf b)
    (he' : e' ∈ f.phisOf b) (heq : e'.2.result = e.2.result) : e' = e := by
  obtain ⟨-, -, -, hp⟩ := mem_phisOf.1 he
  obtain ⟨-, -, -, hp'⟩ := mem_phisOf.1 he'
  obtain ⟨val, hval, hdef⟩ := h.phi_result _ _ hp
  obtain ⟨val', hval', hdef'⟩ := h.phi_result _ _ hp'
  rw [heq, hval] at hval'
  obtain rfl := Option.some.inj hval'
  have hid : e'.1 = e.1 := Definition.phi.inj (hdef'.symm.trans hdef)
  rw [hid, hp] at hp'
  exact Prod.ext hid (Option.some.inj hp').symm

end Func

end Midend
