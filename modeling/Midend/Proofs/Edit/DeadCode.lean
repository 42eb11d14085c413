import Midend.Proofs.Arena
import Midend.Proofs.Edit.Built
import Midend.Proofs.Edit.Ensures
import Midend.Proofs.Edit.Unreachable

namespace Midend

namespace Func

variable {f g k : Func} {b s : BlockId} {gone : BlockId → Prop}

/-- No phi of `s` has a source for `b`. -/
def Unfed (b s : BlockId) (f : Func) : Prop :=
  ∀ p phi, f.phis.get? p = some phi → phi.block = s → phi.source b = none

theorem Trims.unfed (h : f.Trims gone g) (hf : f.Unfed b s) : g.Unfed b s := by
  intro p phi hp hblock
  obtain ⟨old, hold, hsame, -, -, hsub⟩ := h.phi p phi hp
  have hnone := hf p old hold (hsame ▸ hblock)
  cases hsource : phi.source b with
  | none => rfl
  | some v => rw [hsub b v hsource] at hnone; cases hnone

end Func

namespace Edit

open Func

variable {f g : Func} {b s : BlockId} {dead : List BlockId}

theorem dropEdgeSources_ensures (hf : f.Linked fun _ => False) (hg : SlotsOf f g) (b s : BlockId) :
    (dropEdgeSources b s).Ensures g fun _ k => SlotsOf f k ∧ k.Unfed b s := by
  unfold dropEdgeSources
  refine .bind (R := fun h k => h = g ∧ k = g) ⟨_, _, rfl, rfl, rfl⟩ ?_
  rintro _ g' ⟨rfl, rfl⟩
  cases hs : g'.blocks.get? s with
  | none =>
    -- Without the block there is no phi in it.
    refine .pure ⟨hg, fun p phi hp hblock => ?_⟩
    obtain ⟨old, hold, hblock', -⟩ := hg.shape.get?_phi hp
    obtain ⟨data, hdata, -⟩ := hf.phi_listed p old hold id
    rw [hblock', hblock, ← hg.shape.blocks, hs] at hdata
    cases hdata
  | some data =>
    refine (Ensures.forM (I := fun done k => SlotsOf f k ∧
      ∀ p ∈ done, ∀ phi, k.phis.get? p = some phi → phi.source b = none) data.phis ?_
      ⟨hg, by simp⟩).imp fun _ k hk => ⟨hk.1, fun p phi hp hblock => ?_⟩
    · rintro done p rest hsplit k ⟨hk, hdone⟩
      have hmem : p ∈ data.phis := by
        rw [hsplit]
        simp
      obtain ⟨old, hold, -⟩ := hf.listed_phi s data p (hg.shape.blocks ▸ hs) hmem
      obtain ⟨phi, hphi, -⟩ := hk.shape.symm.get?_phi hold
      refine .discard ((removePhiSource_ensures hphi).imp ?_)
      rintro _ _ rfl
      refine ⟨⟨hk.shape.trans (.withoutSource _ _ _ _), hk.uses.withoutSource hphi, fun v u =>
        (held_withoutSource_le hphi b v u).trans (hk.held_le v u)⟩, fun q hq psi hpsi => ?_⟩
      rw [withoutSource, moveUse_phis] at hpsi
      obtain ⟨chi, hchi, rfl⟩ := Arena.get?_modify_eq_some.1 hpsi
      split
      · exact (OrderedMap.get?_erase ..).trans (if_pos rfl)
      · rename_i hne
        refine hdone q ((List.mem_append.1 hq).resolve_right ?_) chi hchi
        simpa using hne
    · obtain ⟨old, hold, hblock', -⟩ := hk.1.shape.get?_phi hp
      obtain ⟨data', hdata', hmem⟩ := hf.phi_listed p old hold id
      rw [hblock', hblock, ← hg.shape.blocks, hs] at hdata'
      exact hk.2 p (Option.some.inj hdata' ▸ hmem) phi hp

theorem dropEdgeSources_unfed (hf : f.Linked fun _ => False) (hg : SlotsOf f g) (b s : BlockId) :
    (dropEdgeSources b s).Ensures g fun _ k => SlotsOf f k ∧ k.Unfed b s ∧
      ∀ c t, g.Unfed c t → k.Unfed c t := by
  obtain ⟨_, k, hrun, hk, hunfed⟩ := dropEdgeSources_ensures hf hg b s
  have hkeeps : (dropEdgeSources b s).Keeps (g.Trims (Eq b)) := dropEdgeSources_keeps_trims rfl s
  have htrims := hkeeps g (.refl g)
  rw [hrun] at htrims
  exact ⟨(), k, hrun, hk, hunfed, fun c t => htrims.unfed⟩

theorem cutEdges_ensures (hf : f.Sound) (dead live : List BlockId) :
    (dead.forM fun b => do
      ((← get).successors b).forM fun s => do
        if live.contains s then dropEdgeSources b s : Edit Unit).Ensures f fun _ k =>
      SlotsOf f k ∧ ∀ b ∈ dead, ∀ s ∈ f.successors b, s ∈ live → k.Unfed b s := by
  refine Ensures.forM (I := fun done k => SlotsOf f k ∧
    ∀ b ∈ done, ∀ s ∈ f.successors b, s ∈ live → k.Unfed b s) dead ?_ ⟨.refl hf.uses, by simp⟩
  rintro done b rest - k ⟨hk, hdone⟩
  refine .bind (R := fun h k' => h = k ∧ k' = k) ⟨_, _, rfl, rfl, rfl⟩ ?_
  rintro _ k ⟨rfl, rfl⟩
  rw [hk.shape.successors]
  refine (Ensures.forM (I := fun cut k' => SlotsOf f k' ∧
    (∀ c t, k.Unfed c t → k'.Unfed c t) ∧ ∀ s ∈ cut, s ∈ live → k'.Unfed b s) (f.successors b) ?_
    ⟨hk, fun _ _ => id, by simp⟩).imp ?_
  · rintro cut s rest - k' ⟨hk', hkept, hcut⟩
    have hsplit : ∀ t, t ∈ cut ++ [s] ↔ t ∈ cut ∨ t = s := by simp
    split
    · refine (dropEdgeSources_unfed hf.linked hk' b s).imp ?_
      rintro _ k'' ⟨hk'', hunfed, hmono⟩
      refine ⟨hk'', fun c t ht => hmono c t (hkept c t ht), fun t ht hlive => ?_⟩
      rcases (hsplit t).1 ht with ht | rfl
      · exact hmono b t (hcut t ht hlive)
      · exact hunfed
    · rename_i hdead
      refine .pure ⟨hk', hkept, fun t ht hlive => ?_⟩
      rcases (hsplit t).1 ht with ht | rfl
      · exact hcut t ht hlive
      · exact absurd (List.contains_iff_mem.2 hlive) hdead
  · rintro _ k' ⟨hk', hkept, hcut⟩
    refine ⟨hk', fun c hc s hs hlive => ?_⟩
    rcases List.mem_append.1 hc with hc | hc
    · exact hkept c s (hdone c hc s hs hlive)
    · obtain rfl := List.mem_singleton.1 hc
      exact hcut s hs hlive

/-- The blocks returned are the unreachable ones, and none of them feeds a phi of a reachable block
any more. -/
theorem removeUnreachable_unfed (hf : f.Sound)
    (hrun : removeUnreachable.apply f = (.ok dead, g)) :
    dead = (f.blockIds.filter fun b => !f.reachableBlocks.contains b) ∧
      ∀ b ∈ dead, ∀ s ∈ f.successors b, s ∈ f.reachableBlocks → g.Unfed b s := by
  rw [removeUnreachable, apply_bind, apply_get] at hrun
  dsimp only at hrun
  split at hrun
  · rename_i hempty
    obtain ⟨hdead, -⟩ := Prod.mk.inj hrun
    obtain rfl := Except.ok.inj hdead
    exact ⟨(List.isEmpty_iff.1 hempty).symm, by simp⟩
  · obtain ⟨_, k, hcut, hrun⟩ := apply_bind_eq_ok.1 hrun
    obtain ⟨_, k', hdiscard, hrun⟩ := apply_bind_eq_ok.1 hrun
    obtain ⟨hdead, rfl⟩ := Prod.mk.inj hrun
    obtain rfl := Except.ok.inj hdead
    obtain ⟨hk, hunfed⟩ := (cutEdges_ensures hf _ _).of_ok hcut
    refine ⟨rfl, fun b hb s hs hlive => ?_⟩
    have hkeeps : (List.forM (f.blockIds.filter fun b => !f.reachableBlocks.contains b)
        discardBlock).Keeps (k.Trims fun _ => True) :=
      .forM fun c _ => discardBlock_keeps_trims (hf.linked.congr hk.shape) trivial
    have htrims := hkeeps k (.refl k)
    rw [hdiscard] at htrims
    exact htrims.unfed (hunfed b hb s hs hlive)

end Edit

namespace Func

variable {f g : Func} {b : BlockId}

theorem hasBlock_of_mem_successors {s : BlockId} (hs : s ∈ f.successors b) :
    f.hasBlock b = true := by
  rw [hasBlock_iff]
  cases hb : f.blocks.get? b with
  | some data => exact ⟨data, rfl⟩
  | none => simp [successors, terminatorOpcode?, hb] at hs

theorem Linked.hasBlock_of_reachable (hf : f.Linked fun _ => False) (hb : f.Reachable b) :
    f.hasBlock b = true := by
  refine FlowGraph.Reaches.induction_on (motive := fun b => f.hasBlock b = true)
    (hf.reaches_iff.2 hb) (hasBlock_iff.2 hf.entry_live) fun _ _ _ _ hs => ?_
  exact hasBlock_iff.2 (hf.successor_live hs)

/-- `g` is what the entry of `f` reaches: these blocks with all that they list, the sources that come
from them, and the values that are not defined in other blocks. -/
structure LivePart (f g : Func) : Prop where
  entry : g.entry = f.entry
  live : ∀ b, g.hasBlock b = true ↔ f.Reachable b
  block : ∀ b, f.Reachable b → g.blocks.get? b = f.blocks.get? b
  inst : ∀ i inst, g.insts.get? i = some inst ↔
    f.insts.get? i = some inst ∧ f.Reachable inst.block
  phi : ∀ p phi, f.phis.get? p = some phi → f.Reachable phi.block →
    ∃ phi', g.phis.get? p = some phi' ∧ phi'.block = phi.block ∧ phi'.result = phi.result ∧
      ∀ q v, phi'.source q = some v ↔ phi.source q = some v ∧ f.Reachable q
  phi_live : ∀ p phi', g.phis.get? p = some phi' →
    ∃ phi, f.phis.get? p = some phi ∧ f.Reachable phi.block
  value : ∀ v val, f.values.get? v = some val → (∀ c, f.DefinedIn v c → f.Reachable c) →
    ∃ val', g.values.get? v = some val' ∧ val'.kind = val.kind ∧ val'.definition = val.definition
  value_live : ∀ v, g.values.contains v = true →
    f.values.contains v = true ∧ ∀ c, f.DefinedIn v c → f.Reachable c

theorem Linked.mem_reachableBlocks_iff (hf : f.Linked fun _ => False) :
    b ∈ f.reachableBlocks ↔ f.Reachable b :=
  (Edit.mem_reachableBlocks hf).trans hf.reaches_iff

namespace SweptTo

variable {i : InstId} {inst : Inst} {p : PhiId} {phi : Phi} {v : ValueId}

section Live

variable (h : f.SweptTo g) (hf : f.Sound)
include h hf

theorem hasBlock_iff_reachable : g.hasBlock b = true ↔ f.Reachable b := by
  rw [← hf.linked.mem_reachableBlocks_iff]
  refine ⟨h.live b, fun hb => ?_⟩
  rw [(h.prunes.successors_eq hf.linked.orderly (not_not.2 hb)).1]
  exact hf.linked.hasBlock_of_reachable (hf.linked.mem_reachableBlocks_iff.1 hb)

theorem get?_block (hb : f.Reachable b) : g.blocks.get? b = f.blocks.get? b := by
  obtain ⟨data, hdata⟩ := hasBlock_iff.1 ((h.hasBlock_iff_reachable hf).2 hb)
  rw [hdata, h.trims.block b data hdata]

theorem get?_inst_iff : g.insts.get? i = some inst ↔
    f.insts.get? i = some inst ∧ f.Reachable inst.block := by
  constructor
  · intro hi
    obtain ⟨data, hdata, -⟩ := h.sound.linked.inst_listed i inst hi id
    exact ⟨h.trims.inst i inst hi, (h.hasBlock_iff_reachable hf).1 (hasBlock_iff.2 ⟨data, hdata⟩)⟩
  · rintro ⟨hi, hb⟩
    obtain ⟨data, hdata, hmem⟩ := hf.linked.inst_listed i inst hi id
    rw [← h.get?_block hf hb] at hdata
    obtain ⟨inst', hi', -⟩ := h.sound.linked.listed_inst _ data i hdata hmem
    rwa [Option.some.inj (hi.symm.trans (h.trims.inst i inst' hi'))]

theorem reachable_of_phi (hp : g.phis.get? p = some phi) : f.Reachable phi.block := by
  obtain ⟨data, hdata, -⟩ := h.sound.linked.phi_listed p phi hp id
  exact (h.hasBlock_iff_reachable hf).1 (hasBlock_iff.2 ⟨data, hdata⟩)

theorem reachable_of_definedIn (hv : g.values.contains v = true) (hdef : f.DefinedIn v b) :
    f.Reachable b := by
  obtain ⟨val', hval'⟩ := Option.isSome_iff_exists.1 hv
  obtain ⟨val, hval, hshape⟩ := h.trims.value v val' hval'
  have hsame : val'.definition = val.definition := (congrArg Value.definition hshape).symm
  cases hdef with
  | inst hval₀ hdef hi =>
    obtain rfl := Option.some.inj (hval.symm.trans hval₀)
    obtain ⟨inst', hi', -⟩ := h.sound.linked.inst_origin v val' _ hval' (hsame.trans hdef)
    obtain ⟨hi₀, hb⟩ := (h.get?_inst_iff hf).1 hi'
    rwa [Option.some.inj (hi.symm.trans hi₀)]
  | phi hval₀ hdef hp =>
    obtain rfl := Option.some.inj (hval.symm.trans hval₀)
    obtain ⟨phi', hp', -⟩ := h.sound.linked.phi_origin v val' _ hval' (hsame.trans hdef)
    obtain ⟨old, hp₀, hblock, -⟩ := h.trims.phi _ phi' hp'
    obtain rfl := Option.some.inj (hp.symm.trans hp₀)
    exact hblock ▸ h.reachable_of_phi hf hp'

theorem get?_value {val : Value} (hv : f.values.get? v = some val)
    (hdef : ∀ c, f.DefinedIn v c → f.Reachable c) :
    ∃ val', g.values.get? v = some val' ∧ val'.shape = val.shape := by
  have hlive : g.values.contains v = true := by
    refine (h.trims.lost v (Option.isSome_iff_exists.2 ⟨val, hv⟩)).resolve_right ?_
    rintro ⟨c, hgone, hc⟩
    exact hgone (hf.linked.mem_reachableBlocks_iff.2 (hdef c hc))
  obtain ⟨val', hval'⟩ := Option.isSome_iff_exists.1 hlive
  obtain ⟨old, hold, hshape⟩ := h.trims.value v val' hval'
  exact ⟨val', hval', Option.some.inj (hold.symm.trans hv) ▸ hshape.symm⟩

/-- Where phis have sources for predecessors only, and those for dead blocks were cut, the live part
is left. -/
theorem livePart
    (hkeys : ∀ p phi q v, f.phis.get? p = some phi → phi.source q = some v →
      phi.block ∈ f.successors q)
    (hunfed : ∀ q s, f.hasBlock q = true → ¬ f.Reachable q → s ∈ f.successors q →
      f.Reachable s → g.Unfed q s) : f.LivePart g where
  entry := h.prunes.entry
  live _ := h.hasBlock_iff_reachable hf
  block _ hb := h.get?_block hf hb
  inst _ _ := h.get?_inst_iff hf
  phi p phi hp hb := by
    obtain ⟨data, hdata, hmem⟩ := hf.linked.phi_listed p phi hp id
    rw [← h.get?_block hf hb] at hdata
    obtain ⟨phi', hp', -⟩ := h.sound.linked.listed_phi _ data p hdata hmem
    obtain ⟨old, hold, hblock, hres, hsame, hsub⟩ := h.trims.phi p phi' hp'
    obtain rfl := Option.some.inj (hp.symm.trans hold)
    refine ⟨phi', hp', hblock, hres, fun q v => ⟨fun hq => ?_, fun ⟨hq, hreach⟩ => ?_⟩⟩
    · refine ⟨hsub q v hq, ?_⟩
      -- A source for a dead block would need an edge from it, and those were cut.
      by_contra hdead
      have hedge := hkeys p phi q v hp (hsub q v hq)
      have hnone := hunfed q phi.block (hasBlock_of_mem_successors hedge) hdead hedge hb p phi' hp'
        hblock
      rw [hnone] at hq
      cases hq
    · refine ((hsame q).resolve_left ?_).trans hq
      exact not_not.2 (hf.linked.mem_reachableBlocks_iff.2 hreach)
  phi_live p phi' hp := by
    obtain ⟨old, hold, hblock, -⟩ := h.trims.phi p phi' hp
    exact ⟨old, hold, hblock ▸ h.reachable_of_phi hf hp⟩
  value v val hv hdef := by
    obtain ⟨val', hval', hshape⟩ := h.get?_value hf hv hdef
    obtain ⟨hkind, hdefinition, -⟩ := Value.mk.inj hshape
    exact ⟨val', hval', hkind, hdefinition⟩
  value_live v hv := by
    obtain ⟨val', hval'⟩ := Option.isSome_iff_exists.1 hv
    obtain ⟨val, hval, -⟩ := h.trims.value v val' hval'
    exact ⟨Option.isSome_iff_exists.2 ⟨val, hval⟩, fun c hc => h.reachable_of_definedIn hf hv hc⟩

theorem removeUnreachable_again : Edit.removeUnreachable.apply g = (.ok [], g) := by
  have hempty : (g.blockIds.filter fun b => !g.reachableBlocks.contains b) = [] := by
    refine List.filter_eq_nil_iff.2 fun b hb => ?_
    have hreach : b ∈ g.reachableBlocks := by
      rw [Edit.mem_reachableBlocks h.sound.linked, h.reaches_iff hf, hf.linked.reaches_iff]
      exact (h.hasBlock_iff_reachable hf).1 (mem_blockIds.1 hb)
    simpa using hreach
  simp only [Edit.removeUnreachable, Edit.apply_bind, Edit.apply_get, hempty, List.isEmpty_nil,
    if_true, Edit.apply_pure]

end Live

end SweptTo

/-- Slots of the live part hold values of the live part, unless a reachable block reads what an
unreachable one defines. -/
theorem LivePart.slotsLive (hg : f.LivePart g) (hslots : f.SlotsLive)
    (hoperand : ∀ i inst v c, f.insts.get? i = some inst → f.Reachable inst.block →
      v ∈ inst.operands → f.DefinedIn v c → f.Reachable c)
    (hsource : ∀ p phi q v c, f.phis.get? p = some phi → phi.source q = some v → f.Reachable q →
      f.DefinedIn v c → f.Reachable c) : g.SlotsLive := by
  have hvalue : ∀ v, f.values.contains v = true → (∀ c, f.DefinedIn v c → f.Reachable c) →
      g.values.contains v = true := by
    intro v hv hdef
    obtain ⟨val, hval⟩ := Option.isSome_iff_exists.1 hv
    obtain ⟨val', hval', -⟩ := hg.value v val hval hdef
    exact Option.isSome_iff_exists.2 ⟨val', hval'⟩
  refine ⟨fun i inst v hi hv => ?_, fun p phi' q v hp hq => ?_⟩
  · obtain ⟨hi, hb⟩ := (hg.inst i inst).1 hi
    exact hvalue v (hslots.operand i inst v hi hv) fun c => hoperand i inst v c hi hb hv
  · obtain ⟨phi, hphi, hb⟩ := hg.phi_live p phi' hp
    obtain ⟨phi'', hp'', -, -, hsources⟩ := hg.phi p phi hphi hb
    obtain rfl := Option.some.inj (hp.symm.trans hp'')
    obtain ⟨hq, hreach⟩ := (hsources q v).1 hq
    exact hvalue v (hslots.source p phi q v hphi hq) fun c => hsource p phi q v c hphi hq hreach

end Func

namespace Edit

open Func

/-- The removal of unreachable blocks takes away the dead code and nothing else. It returns the live
blocks that the entry does not reach; what it leaves is the live part, in which everything that is
named is live and the use lists are right; a second removal does nothing; and the verifier accepts the
result if it accepted the function. -/
theorem removeUnreachable_deletes_dead_code {f : Func} (hf : f.Built) (hslots : f.SlotsLive)
    (hkeys : ∀ p phi q v, f.phis.get? p = some phi → phi.source q = some v →
      phi.block ∈ f.successors q)
    (hoperand : ∀ i inst v c, f.insts.get? i = some inst → f.Reachable inst.block →
      v ∈ inst.operands → f.DefinedIn v c → f.Reachable c)
    (hsource : ∀ p phi q v c, f.phis.get? p = some phi → phi.source q = some v → f.Reachable q →
      f.DefinedIn v c → f.Reachable c) :
    ∃ dead g, removeUnreachable.apply f = (.ok dead, g) ∧
      dead.Sublist f.blockIds ∧ (∀ b, b ∈ dead ↔ f.hasBlock b = true ∧ ¬ f.Reachable b) ∧
      f.LivePart g ∧ g.SlotsLive ∧
      (∀ i inst t, g.insts.get? i = some inst → t ∈ inst.opcode.targets → g.hasBlock t = true) ∧
      (∀ v val u n, g.values.get? v = some val →
        ((u, n) ∈ val.users ↔ g.heldBy v u = some n ∧ 0 < n)) ∧
      removeUnreachable.apply g = (.ok [], g) ∧
      ((verify.apply f).1 = .ok () → (verify.apply g).1 = .ok ()) := by
  have hs := hf.sound
  obtain ⟨dead, g, hrun, hg⟩ := removeUnreachable_swept hs
  obtain ⟨hdead, hunfed⟩ := removeUnreachable_unfed hs hrun
  have hmem : ∀ b, b ∈ dead ↔ f.hasBlock b = true ∧ ¬ f.Reachable b := by
    intro b
    rw [hdead, List.mem_filter, mem_blockIds, ← hs.linked.mem_reachableBlocks_iff]
    simp
  have hlive := hg.livePart hs hkeys fun q s hq hgone hs' hreach =>
    hunfed q ((hmem q).2 ⟨hq, hgone⟩) s hs' (hs.linked.mem_reachableBlocks_iff.2 hreach)
  refine ⟨dead, g, hrun, hdead ▸ List.filter_sublist, hmem, hlive,
    hlive.slotsLive hslots hoperand hsource, fun i inst t hi ht => ?_, fun v val u n hv => ?_,
    hg.removeUnreachable_again hs, verify_of_sweptTo hg hs⟩
  · exact hasBlock_iff.2 (hg.sound.linked.target_live i inst t hi id ht)
  · rw [Value.mem_users_iff (hg.sound.uses.counted v val hv), hg.sound.uses.uses v val u hv, held]
    cases g.heldBy v u with
    | none => simp; omega
    | some m => simp

end Edit

namespace Func

variable {f : Func} {v : ValueId} {b : BlockId}

def definitionBlock (f : Func) (v : ValueId) : Option BlockId :=
  (f.values.get? v).bind fun val =>
    match val.definition with
    | .inst i => (f.insts.get? i).map (·.block)
    | .phi p => (f.phis.get? p).map (·.block)
    | _ => none

theorem DefinedIn.definitionBlock_eq (h : f.DefinedIn v b) : f.definitionBlock v = some b := by
  cases h with
  | inst hv hdef hi => simp [definitionBlock, hv, hdef, hi]
  | phi hv hdef hp => simp [definitionBlock, hv, hdef, hp]

end Func

/-- A block that returns what its phi has, and a loop that is never reached: its two values are made
from each other, and it has an edge to the first block with one of them as source. -/
def deadLoop : List Call :=
  [.addArgument, .addBlock, .addBlock, .addBlock, .append ⟨0⟩ (.branch ⟨1⟩) [],
    .append ⟨2⟩ (.binary .add) [⟨0⟩, ⟨0⟩], .append ⟨2⟩ (.branch ⟨3⟩) [],
    .append ⟨3⟩ (.binary .add) [⟨1⟩, ⟨1⟩], .setOperand ⟨1⟩ 1 ⟨2⟩,
    .append ⟨3⟩ (.condBranch ⟨2⟩ ⟨1⟩) [⟨2⟩], .addPhi ⟨1⟩, .setPhiSource ⟨0⟩ ⟨0⟩ ⟨0⟩,
    .setPhiSource ⟨0⟩ ⟨3⟩ ⟨2⟩, .append ⟨1⟩ .ret [⟨3⟩]]

/-- The loop goes with both of its values, and the phi keeps its source for the entry. -/
theorem deadLoop_removed :
    ∃ f g phi, f = deadLoop.foldl (fun f c => c.run f) (Func.new "f") ∧
      Edit.removeUnreachable.apply f = (.ok [⟨2⟩, ⟨3⟩], g) ∧ f.LivePart g ∧ g.SlotsLive ∧
      g.phis.get? ⟨0⟩ = some phi ∧ phi.source ⟨0⟩ = some ⟨0⟩ ∧ phi.source ⟨3⟩ = none ∧
      Edit.removeUnreachable.apply g = (.ok [], g) := by
  obtain ⟨f, hf⟩ : ∃ f : Func, f = deadLoop.foldl (fun f c => c.run f) (Func.new "f") := ⟨_, rfl⟩
  have hbuilt : f.Built := ⟨"f", deadLoop, hf⟩
  have hslots : f.SlotsLive :=
    hf ▸ Func.foldl_run_slotsLive (Func.new_sound "f") (Func.new_slotsLive "f") (by decide)
  -- What the hypotheses say of the live instructions and phis can be computed.
  have hkeys : ∀ p ∈ f.phis.live, ∀ phi ∈ f.phis.get? p, ∀ e ∈ phi.sources.toList,
      phi.block ∈ f.successors e.1 := by
    rw [hf]
    decide +kernel
  have hoperands : ∀ i ∈ f.insts.live, ∀ inst ∈ f.insts.get? i, inst.block ∈ f.reachableBlocks →
      ∀ v ∈ inst.operands, ∀ c ∈ f.definitionBlock v, c ∈ f.reachableBlocks := by
    rw [hf]
    decide +kernel
  have hsources : ∀ p ∈ f.phis.live, ∀ phi ∈ f.phis.get? p, ∀ e ∈ phi.sources.toList,
      e.1 ∈ f.reachableBlocks → ∀ c ∈ f.definitionBlock e.2, c ∈ f.reachableBlocks := by
    rw [hf]
    decide +kernel
  have hreach : ∀ {b}, b ∈ f.reachableBlocks ↔ f.Reachable b :=
    hbuilt.sound.linked.mem_reachableBlocks_iff
  obtain ⟨dead, g, hrun, -, hdead, hlive, hlive', -, -, hagain, -⟩ :=
    Edit.removeUnreachable_deletes_dead_code hbuilt hslots
      (fun p phi q v hp hq => hkeys p (Arena.mem_live_of_get? hp) phi hp (q, v)
        (OrderedMap.mem_toList.2 hq))
      (fun i inst v c hi hb hv hc => hreach.1 (hoperands i (Arena.mem_live_of_get? hi) inst hi
        (hreach.2 hb) v hv c hc.definitionBlock_eq))
      (fun p phi q v c hp hq hb hc => hreach.1 (hsources p (Arena.mem_live_of_get? hp) phi hp (q, v)
        (OrderedMap.mem_toList.2 hq) (hreach.2 hb) c hc.definitionBlock_eq))
  have hresult : (Edit.removeUnreachable.apply f).1.toOption = some [⟨2⟩, ⟨3⟩] := by
    rw [hf]
    decide +kernel
  rw [hrun] at hresult
  obtain rfl := Option.some.inj hresult
  have hphi : f.phis.get? ⟨0⟩ = some ⟨⟨1⟩, ⟨3⟩, .ofList [(⟨0⟩, ⟨0⟩), (⟨3⟩, ⟨2⟩)]⟩ := by
    rw [hf]
    decide +kernel
  have hfirst : f.Reachable ⟨1⟩ := hreach.1 (by rw [hf]; decide +kernel)
  have hentry : f.Reachable ⟨0⟩ := hreach.1 (by rw [hf]; decide +kernel)
  obtain ⟨phi, hphi', -, -, hsource⟩ := hlive.phi _ _ hphi hfirst
  refine ⟨f, g, phi, hf, hrun, hlive, hlive', hphi', (hsource _ _).2 ⟨rfl, hentry⟩, ?_, hagain⟩
  refine Option.eq_none_iff_forall_ne_some.2 fun v hv => ?_
  exact ((hdead ⟨3⟩).1 (by decide)).2 ((hsource _ _).1 hv).2

end Midend
