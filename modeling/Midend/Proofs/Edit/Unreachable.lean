import Midend.Proofs.Edit.Cached
import Midend.Proofs.Func.Accepted

namespace Midend

open Func

namespace Func

variable {f g : Func} {gone : BlockId → Prop} {b : BlockId} {v : ValueId} {i : InstId} {p : PhiId}

/-- `g` is `f` without some of what stood or was defined in the blocks that are to go, and of the
sources that came from them. -/
structure Trims (gone : BlockId → Prop) (f g : Func) : Prop where
  block : ∀ b data, g.blocks.get? b = some data → f.blocks.get? b = some data
  inst : ∀ i inst, g.insts.get? i = some inst → f.insts.get? i = some inst
  phi : ∀ p phi, g.phis.get? p = some phi → ∃ old, f.phis.get? p = some old ∧
    phi.block = old.block ∧ phi.result = old.result ∧
    (∀ q, gone q ∨ phi.source q = old.source q) ∧
    ∀ q v, phi.source q = some v → old.source q = some v
  value : ∀ v val, g.values.get? v = some val → ∃ old, f.values.get? v = some old ∧
    old.shape = val.shape
  lost : ∀ v, f.values.contains v = true → g.values.contains v = true ∨
    ∃ c, gone c ∧ f.DefinedIn v c

namespace Trims

theorem refl (f : Func) : f.Trims gone f where
  block _ _ := id
  inst _ _ := id
  phi _ phi hp := ⟨phi, hp, rfl, rfl, fun _ => .inr rfl, fun _ _ => id⟩
  value _ val hv := ⟨val, hv, rfl⟩
  lost _ := .inl

theorem modifyValue (h : f.Trims gone g) (v : ValueId) {u : Value → Value}
    (hu : ∀ val, (u val).shape = val.shape) : f.Trims gone (g.modifyValue v u) where
  block := h.block
  inst := h.inst
  phi := h.phi
  value w val hw := by
    obtain ⟨val', hw', rfl⟩ := Arena.get?_modify_eq_some.1 hw
    obtain ⟨old, hold, hshape⟩ := h.value w val' hw'
    refine ⟨old, hold, hshape.trans ?_⟩
    split
    · exact (hu val').symm
    · rfl
  lost w hw := by
    rw [Func.modifyValue, Arena.contains_modify]
    exact h.lost w hw

theorem releaseUses (h : f.Trims gone g) (user : User) (vs : List ValueId) :
    f.Trims gone (g.releaseUses user vs) := by
  induction vs generalizing g with
  | nil => exact h
  | cons v vs ih => exact ih (h.modifyValue v fun _ => rfl)

theorem eraseInst (h : f.Trims gone g) (i : InstId) :
    f.Trims gone { g with insts := g.insts.erase i } where
  block := h.block
  inst j inst hj := by
    simp only [Arena.get?_erase] at hj
    split at hj
    · cases hj
    · exact h.inst j inst hj
  phi := h.phi
  value := h.value
  lost := h.lost

theorem erasePhi (h : f.Trims gone g) (p : PhiId) :
    f.Trims gone { g with phis := g.phis.erase p } where
  block := h.block
  inst := h.inst
  phi q phi hq := by
    simp only [Arena.get?_erase] at hq
    split at hq
    · cases hq
    · exact h.phi q phi hq
  value := h.value
  lost := h.lost

theorem eraseBlock (h : f.Trims gone g) (b : BlockId) :
    f.Trims gone { g with blocks := g.blocks.erase b } where
  block c data hc := by
    simp only [Arena.get?_erase] at hc
    split at hc
    · cases hc
    · exact h.block c data hc
  inst := h.inst
  phi := h.phi
  value := h.value
  lost := h.lost

theorem eraseSource (h : f.Trims gone g) (p : PhiId) {pred : BlockId} (hpred : gone pred) :
    f.Trims gone { g with
      phis := g.phis.modify p fun d => { d with sources := d.sources.erase pred } } where
  block := h.block
  inst := h.inst
  phi q phi hq := by
    obtain ⟨phi', hq', rfl⟩ := Arena.get?_modify_eq_some.1 hq
    obtain ⟨old, hold, hblock, hres, hsame, hsub⟩ := h.phi q phi' hq'
    split
    · refine ⟨old, hold, hblock, hres, fun r => ?_, fun r v hr => hsub r v ?_⟩
      · by_cases hr : r = pred
        · exact .inl (hr ▸ hpred)
        · refine (hsame r).imp_right fun heq => ?_
          rw [← heq]
          exact (OrderedMap.get?_erase ..).trans (if_neg hr)
      · have hget := (OrderedMap.get?_erase phi'.sources pred r).symm.trans hr
        split at hget
        · cases hget
        · exact hget
    · exact ⟨old, hold, hblock, hres, hsame, hsub⟩
  value := h.value
  lost := h.lost

theorem eraseValue (h : f.Trims gone g) (hv : f.DefinedIn v b) (hb : gone b) :
    f.Trims gone { g with values := g.values.erase v } where
  block := h.block
  inst := h.inst
  phi := h.phi
  value w val hw := by
    simp only [Arena.get?_erase] at hw
    split at hw
    · cases hw
    · exact h.value w val hw
  lost w hw := by
    by_cases heq : w = v
    · exact .inr ⟨b, hb, heq ▸ hv⟩
    · refine (h.lost w hw).imp_left fun hlive => ?_
      rw [Arena.contains_erase, hlive, Bool.and_true, decide_eq_true_eq]
      exact heq

theorem definedIn (h : f.Trims gone g) (hv : g.DefinedIn v b) : f.DefinedIn v b := by
  cases hv with
  | inst hval hdef hi =>
    obtain ⟨old, hold, heq⟩ := h.value _ _ hval
    exact .inst hold ((congrArg Value.definition heq).trans hdef) (h.inst _ _ hi)
  | phi hval hdef hp =>
    obtain ⟨old, hold, heq⟩ := h.value _ _ hval
    obtain ⟨phi, hphi, hblock, -⟩ := h.phi _ _ hp
    exact hblock ▸ .phi hold ((congrArg Value.definition heq).trans hdef) hphi

theorem definedWithin (h : f.Trims gone g) {k : Nat} (hv : f.DefinedWithin v b k) :
    g.DefinedWithin v b k := by
  intro val data i m hval hdef hb hm
  obtain ⟨old, hold, heq⟩ := h.value _ _ hval
  exact hv old data i m hold ((congrArg Value.definition heq).trans hdef) (h.block b data hb) hm

end Trims

end Func

namespace Edit

variable {f g : Func} {gone : BlockId → Prop} {b : BlockId} {v : ValueId} {i : InstId} {p : PhiId}

theorem forceDestroy_keeps_trims (hv : f.DefinedIn v b) (hb : gone b) :
    (forceDestroy v).Keeps (f.Trims gone) := by
  refine .bind (.query _) fun _ => .modify fun g hg => ?_
  have herase := hg.eraseValue hv hb
  dsimp only
  split <;> exact ⟨herase.block, herase.inst, herase.phi, herase.value, herase.lost⟩

theorem dropEdgeSources_keeps_trims (hb : gone b) (s : BlockId) :
    (dropEdgeSources b s).Keeps (f.Trims gone) := by
  have hremove : ∀ p, (removePhiSource p b).Keeps (f.Trims gone) := by
    refine fun p => .bind (.query _) fun _ => .bind (.modify fun g hg => ?_) fun _ => .pure _
    have herase := hg.eraseSource p hb
    dsimp only
    split
    · exact herase.modifyValue _ fun val => shape_dropUse val _
    · exact herase
  refine .bind .get fun _ => ?_
  split
  · exact .pure _
  · exact .forM fun p _ => .discard (hremove p)

theorem discardPhi_keeps_trims (hf : f.Linked fun _ => False)
    (hp : ∀ phi, f.phis.get? p = some phi → gone phi.block) :
    (discardPhi p).Keeps (f.Trims gone) := by
  intro g hg
  rw [discardPhi, apply_bind, apply_get]
  dsimp only
  split
  · exact hg
  · rename_i data hdata
    obtain ⟨old, hold, -, hres, -⟩ := hg.phi p data hdata
    obtain ⟨val, hval, hdef⟩ := hf.phi_result p old hold
    refine Keeps.bind (P := f.Trims gone) (.modify fun k hk => (hk.erasePhi p).releaseUses _ _)
      (fun _ => ?_) g hg
    exact forceDestroy_keeps_trims (hres ▸ .phi hval hdef hold) (hp old hold)

theorem discardInst_keeps_trims (hf : f.Linked fun _ => False)
    (hi : ∀ inst, f.insts.get? i = some inst → gone inst.block) :
    (discardInst i).Keeps (f.Trims gone) := by
  intro g hg
  rw [discardInst, apply_bind, apply_get]
  dsimp only
  split
  · exact hg
  · rename_i data hdata
    have hold := hg.inst i data hdata
    refine Keeps.bind (P := f.Trims gone) (.modify fun k hk => (hk.eraseInst i).releaseUses _ _)
      (fun _ => ?_) g hg
    split
    · exact .pure _
    · rename_i r hres
      obtain ⟨val, hval, hdef⟩ := hf.inst_result i data r hold hres
      exact forceDestroy_keeps_trims (.inst hval hdef hold) (hi data hold)

theorem discardBlock_keeps_trims (hf : f.Linked fun _ => False) (hb : gone b) :
    (discardBlock b).Keeps (f.Trims gone) := by
  intro g hg
  rw [discardBlock, apply_bind, apply_query]
  cases hdata : g.block b with
  | error err => exact hg
  | ok data =>
    have hold := hg.block b data (block_eq_ok.1 hdata)
    refine Keeps.bind (P := f.Trims gone) (.modify fun k hk => hk.eraseBlock b) (fun _ =>
      .bind (.forM fun p hp => ?_) fun _ => .forM fun i hi => ?_) g hg
    · obtain ⟨phi, hphi, hblock⟩ := hf.listed_phi b data p hold hp
      refine discardPhi_keeps_trims hf fun phi' hphi' => ?_
      obtain rfl := Option.some.inj (hphi.symm.trans hphi')
      exact hblock ▸ hb
    · obtain ⟨inst, hinst, hblock⟩ := hf.listed_inst b data i hold hi
      refine discardInst_keeps_trims hf fun inst' hinst' => ?_
      obtain rfl := Option.some.inj (hinst.symm.trans hinst')
      exact hblock ▸ hb

theorem removeUnreachable_trims (hf : f.Linked fun _ => False) :
    f.Trims (· ∉ f.reachableBlocks) (removeUnreachable.apply f).2 :=
  removeUnreachable_snd (.refl f) (fun _ s hb => dropEdgeSources_keeps_trims hb s)
    (fun _ hb => discardBlock_keeps_trims hf hb) fun _ hg =>
      ⟨hg.block, hg.inst, hg.phi, hg.value, hg.lost⟩

end Edit

namespace Func

variable {f g : Func} {b : BlockId} {v : ValueId}

/-- `g` is `f` without the blocks that the entry does not reach. -/
structure SweptTo (f g : Func) : Prop where
  prunes : f.Prunes (· ∉ f.reachableBlocks) g
  trims : f.Trims (· ∉ f.reachableBlocks) g
  sound : g.Sound
  live : ∀ b, g.hasBlock b = true → b ∈ f.reachableBlocks

namespace SweptTo

open Edit (mem_reachableBlocks)

theorem path (h : f.SweptTo g) (hf : f.Sound) {path : List BlockId}
    (hpath : g.toFlowGraph.Path g.entry b path) : f.toFlowGraph.Path f.entry b path :=
  h.prunes.entry ▸ hpath.mono fun _ _ hs => h.prunes.successors_subset hf.linked.orderly hs

theorem successors_eq (h : f.SweptTo g) (hf : f.Sound) (hb : f.toFlowGraph.Reaches f.entry b) :
    g.successors b = f.successors b :=
  (h.prunes.successors_eq hf.linked.orderly
    (not_not.2 ((mem_reachableBlocks hf.linked).2 hb))).2

theorem reaches_iff (h : f.SweptTo g) (hf : f.Sound) :
    g.toFlowGraph.Reaches g.entry b ↔ f.toFlowGraph.Reaches f.entry b := by
  refine ⟨fun ⟨path, hpath⟩ => ⟨path, h.path hf hpath⟩, fun hb => ?_⟩
  refine hb.induction_on (h.prunes.entry ▸ .refl _) fun c s hc hstep hs => hstep.step ?_
  show s ∈ g.successors c
  rw [h.successors_eq hf hc]
  exact hs

/-- What a reachable block reads was defined in one. -/
theorem contains_value (h : f.SweptTo g) (hf : f.Sound) (hv : f.values.contains v = true)
    {c : BlockId} (hc : f.toFlowGraph.Reaches f.entry c)
    (hdef : ∀ d, f.DefinedIn v d → ∀ path, f.toFlowGraph.Path f.entry c path → d ∈ path) :
    g.values.contains v = true := by
  refine (h.trims.lost v hv).resolve_right ?_
  rintro ⟨d, hgone, hd⟩
  obtain ⟨path, hpath⟩ := hc
  exact hgone ((mem_reachableBlocks hf.linked).2 (.of_mem_path hpath (hdef d hd path hpath)))

theorem slotsLive (h : f.SweptTo g) (hf : f.Sound) (hslots : f.SlotsLive) (hr : f.ReadsDefined) :
    g.SlotsLive where
  operand i inst v hi hv := by
    obtain ⟨data, hdata, hmem⟩ := h.sound.linked.inst_listed i inst hi id
    obtain ⟨k, hk⟩ := List.getElem?_of_mem hmem
    have hreach := (mem_reachableBlocks hf.linked).1 (h.live _ (hasBlock_iff.2 ⟨data, hdata⟩))
    have hi' := h.trims.inst i inst hi
    exact h.contains_value hf (hslots.operand i inst v hi' hv) hreach
      (hr.operand _ data k i inst v hreach (h.trims.block _ data hdata) hk hi' hv).1
  source p phi q v hp hv := by
    obtain ⟨data, hdata, hmem⟩ := h.sound.linked.phi_listed p phi hp id
    have hreach := (mem_reachableBlocks hf.linked).1 (h.live _ (hasBlock_iff.2 ⟨data, hdata⟩))
    have hdata' := h.trims.block _ data hdata
    obtain ⟨old, hp', -, -, -, hsub⟩ := h.trims.phi p phi hp
    have hq := ((hr.keys _ data p old q hreach hdata' hmem hp').1 ⟨v, hsub q v hv⟩).1
    exact h.contains_value hf (hslots.source p old q v hp' (hsub q v hv)) hq
      (hr.source _ data p old q v hdata' hmem hp' (hsub q v hv) hq)

theorem readsDefined (h : f.SweptTo g) (hf : f.Sound) (hr : f.ReadsDefined) : g.ReadsDefined where
  terminated b hb := by
    obtain ⟨data, hdata⟩ := hasBlock_iff.1 hb
    have hdata' := h.trims.block b data hdata
    obtain ⟨data', i, inst, hget, hlast, hi, hterm⟩ := hr.terminated b (hasBlock_iff.2 ⟨_, hdata'⟩)
    obtain rfl := Option.some.inj (hdata'.symm.trans hget)
    obtain ⟨inst', hi', -⟩ := h.sound.linked.listed_inst b data i hdata (List.mem_of_getLast? hlast)
    obtain rfl := Option.some.inj (hi.symm.trans (h.trims.inst i inst' hi'))
    exact ⟨data, i, inst, hdata, hlast, hi', hterm⟩
  operand b data k i inst v hb hdata hk hi hv := by
    obtain ⟨hdef, hwithin⟩ := hr.operand b data k i inst v ((h.reaches_iff hf).1 hb)
      (h.trims.block b data hdata) hk (h.trims.inst i inst hi) hv
    -- No path and no definition is new.
    exact ⟨fun c hc path hpath => hdef c (h.trims.definedIn hc) path (h.path hf hpath),
      h.trims.definedWithin hwithin⟩
  source b data p phi q v hdata hmem hp hv hq c hc path hpath := by
    obtain ⟨old, hp', -, -, -, hsub⟩ := h.trims.phi p phi hp
    exact hr.source b data p old q v (h.trims.block b data hdata) hmem hp' (hsub q v hv)
      ((h.reaches_iff hf).1 hq) c (h.trims.definedIn hc) path (h.path hf hpath)
  keys b data p phi q hb hdata hmem hp := by
    obtain ⟨old, hp', -, -, hsame, hsub⟩ := h.trims.phi p phi hp
    have hkeys := hr.keys b data p old q ((h.reaches_iff hf).1 hb) (h.trims.block b data hdata)
      hmem hp'
    rw [h.reaches_iff hf]
    constructor
    · rintro ⟨v, hv⟩
      obtain ⟨hq, hs⟩ := hkeys.1 ⟨v, hsub q v hv⟩
      rw [h.successors_eq hf hq]
      exact ⟨hq, hs⟩
    · rintro ⟨hq, hs⟩
      rw [h.successors_eq hf hq] at hs
      obtain ⟨v, hv⟩ := hkeys.2 ⟨hq, hs⟩
      refine ⟨v, ((hsame q).resolve_left ?_).trans hv⟩
      exact not_not.2 ((mem_reachableBlocks hf.linked).2 hq)

end SweptTo

end Func

namespace Edit

variable {f : Func}

theorem removeUnreachable_swept (hf : f.Sound) :
    ∃ dead g, removeUnreachable.apply f = (.ok dead, g) ∧ f.SweptTo g := by
  obtain ⟨dead, g, hrun, hg, hlive⟩ := removeUnreachable_ok hf
  have hprunes := removeUnreachable_prunes hf.linked.orderly
  have htrims := removeUnreachable_trims hf.linked
  rw [hrun] at hprunes htrims
  refine ⟨dead, g, hrun, hprunes, htrims, hg, fun b hb => ?_⟩
  exact (mem_reachableBlocks hf.linked).2 (hlive b hb)

/-- What is left is accepted if its slots are live: what the dominance needs is reached by the entry,
so the limit suffices as it did before. -/
theorem verify_of_sweptTo {g : Func} (h : f.SweptTo g) (hf : f.Sound)
    (hv : (verify.apply f).1 = .ok ()) : (verify.apply g).1 = .ok () := by
  obtain ⟨d, hd, hof, hclean⟩ := verify_violations hf hv
  obtain ⟨hd, -⟩ := (dominance_yields hf.coherent).of_ok hd
  have hslots := slotsLive_of_violations hf.linked hclean
  have hreads := (verify_ok_iff hf hslots hd).1 hv
  have hgone : ∀ b, b ∉ f.reachableBlocks → ¬ f.Reachable b := fun b hb hreach =>
    hb (mem_reachableBlocks_of_reachable hf.linked.orderly hreach)
  obtain ⟨e, he, -⟩ := computeDominance_of_agrees (h.prunes.agrees hf.linked.orderly hgone)
    h.prunes.entry hd
  rw [← h.prunes.limit] at he
  exact (verify_ok_iff h.sound (h.slotsLive hf hslots hreads) he).2 (h.readsDefined hf hreads)

theorem removeUnreachable_verify (hf : f.Sound) (hv : (verify.apply f).1 = .ok ()) :
    ∃ dead g, removeUnreachable.apply f = (.ok dead, g) ∧ (verify.apply g).1 = .ok () ∧
      g.blocks.size = f.blocks.size ∧ g.dominanceLimit = f.dominanceLimit ∧
      ∀ b, g.hasBlock b = true → g.Reachable b := by
  obtain ⟨dead, g, hrun, hg⟩ := removeUnreachable_swept hf
  refine ⟨dead, g, hrun, verify_of_sweptTo hg hf hv, hg.prunes.size, hg.prunes.limit, fun b hb => ?_⟩
  rw [← hg.sound.linked.reaches_iff, hg.reaches_iff hf]
  exact (mem_reachableBlocks hf.linked).1 (hg.live b hb)

end Edit

end Midend
