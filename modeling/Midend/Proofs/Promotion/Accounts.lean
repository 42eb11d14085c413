import Midend.Proofs.Arena
import Midend.Proofs.Pipeline.Views
import Midend.Proofs.Promotion.Promote
import Midend.Proofs.Promotion.Tries
import Midend.Proofs.Promotion.Walk

namespace Midend

open Work

variable {f g h : Func} {d : Dominance} {cell : Cell} {i : InstId} {captured : Bool} {n : Nat}

namespace Func

/-- From `f` to `g` some instructions have gone, none of them the creation of a cell, and there are
`n` phis more. -/
structure Thinned (f : Func) (n : Nat) (g : Func) : Prop where
  sound : g.Sound
  inst : ∀ i inst', g.insts.get? i = some inst' →
    ∃ inst, f.insts.get? i = some inst ∧ inst'.opcode = inst.opcode
  creates : ∀ i, f.Creates i → g.Creates i
  phis : g.phis.count = f.phis.count + n

namespace Thinned

theorem refl (hf : f.Sound) : f.Thinned 0 f := ⟨hf, fun _ inst hi => ⟨inst, hi, rfl⟩, fun _ => id, rfl⟩

theorem of_shape (hs : f.Thinned n h) (hshape : h.SameShape g) (hsound : g.Sound) :
    f.Thinned n g := by
  have hopcode : ∀ {a b : Func}, a.SameShape b → ∀ {i inst}, b.insts.get? i = some inst →
      ∃ inst', a.insts.get? i = some inst' ∧ inst.opcode = inst'.opcode := by
    intro a b hab i inst hi
    have hsame := hab.inst i
    rw [hi] at hsame
    obtain ⟨inst', hi', heq⟩ := Option.map_eq_some_iff.1 hsame.symm
    exact ⟨inst', hi', (congrArg Inst.opcode heq).symm⟩
  refine ⟨hsound, fun i inst hi => ?_, fun i hi => ?_, ?_⟩
  · obtain ⟨inst', hi', hop⟩ := hopcode hshape hi
    obtain ⟨inst'', hi'', hop'⟩ := hs.inst i inst' hi'
    exact ⟨inst'', hi'', hop.trans hop'⟩
  · obtain ⟨inst, hinst, hop⟩ := hs.creates i hi
    obtain ⟨inst', hi', hop'⟩ := hopcode hshape.symm hinst
    exact ⟨inst', hi', hop'.symm.trans hop⟩
  · rw [← hs.phis]
    exact Arena.count_congr fun p => Arena.contains_of_map (hshape.phi p)

section Edits

variable (hs : f.Thinned n h)
include hs

theorem replaceAllUses_ends (old new : ValueId) :
    Ends True (Edit.replaceAllUses old new) h fun _ g => f.Thinned n g :=
  (Edit.replaceAllUses_yields hs.sound.uses old new).ends
    (Edit.replaceAllUses_sound hs.sound old new) fun _ _ hsound hr => hs.of_shape hr.2.shape hsound

theorem setOperand_ends (i : InstId) (index : Nat) (v : ValueId) :
    Ends True (Edit.setOperand i index v) h fun _ g => f.Thinned n g := by
  refine (Edit.setOperand_yields h i index v).ends (Edit.setOperand_sound hs.sound i index v) ?_
  rintro _ g hsound ⟨-, -, old, -, -, -, hg⟩
  split at hg
  · exact hg ▸ hs
  · subst hg
    exact hs.of_shape (.withOperand _ _ _ _ _) hsound

theorem setPhiSource_ends (p : PhiId) (pred : BlockId) (v : ValueId) :
    Ends True (Edit.setPhiSource p pred v) h fun _ g => f.Thinned n g := by
  refine (Edit.setPhiSource_yields h p pred v).ends (Edit.setPhiSource_sound hs.sound p pred v) ?_
  rintro _ g hsound ⟨-, -, phi, -, -, -, rfl⟩
  exact hs.of_shape (.withSource _ _ _ _ _) hsound

theorem removePhiSource_ends (p : PhiId) (pred : BlockId) :
    Ends True (Edit.removePhiSource p pred) h fun _ g => f.Thinned n g := by
  refine (Edit.removePhiSource_yields h p pred).ends
    (Edit.removePhiSource_sound hs.sound p pred) ?_
  rintro _ g hsound ⟨phi, -, -, rfl⟩
  exact hs.of_shape (.withoutSource _ _ _ _) hsound

theorem addPhi_ends (b : BlockId) : Ends True (Edit.addPhi b) h fun _ g => f.Thinned (n + 1) g := by
  refine (Edit.addPhi_yields h b).ends (Edit.addPhi_sound hs.sound b) ?_
  rintro _ g hsound ⟨-, -, -, rfl⟩
  refine ⟨hsound, hs.inst, hs.creates, ?_⟩
  have hphis : (h.withPhi b).phis.count = h.phis.count + 1 := Arena.count_push h.phis _
  rw [hphis, hs.phis, Nat.add_assoc]

theorem removeInst_ends (i : InstId) : Ends True (Edit.removeInst i) h fun _ g =>
    g.Sound ∧ g.insts = h.insts.erase i ∧ g.phis = h.phis ∧ h.insts.contains i = true := by
  refine (Edit.removeInst_yields h i fun data v hi hv =>
    hs.sound.linked.inst_result i data v hi hv).ends (Edit.removeInst_sound hs.sound i) ?_
  rintro _ g hsound ⟨data, hdata, -, hg⟩
  refine ⟨hsound, ?_, ?_, Option.isSome_iff_exists.2 ⟨data, hdata⟩⟩
  · rw [hg]
    split <;> simp [unlistInst, invalidateDominance]
  · rw [hg]
    split <;> simp [unlistInst, invalidateDominance]

theorem removeOther_ends {inst : Inst} (hi : f.insts.get? i = some inst)
    (hop : inst.opcode ≠ .newRef) : Ends True (Edit.removeInst i) h fun _ g => f.Thinned n g := by
  refine (hs.removeInst_ends i).imp fun _ g hg => ?_
  obtain ⟨hsound, hinsts, hphis, -⟩ := hg
  refine ⟨hsound, fun j inst' hj => ?_, fun j hj => ?_, hphis ▸ hs.phis⟩
  · rw [hinsts, Arena.get?_erase] at hj
    split at hj
    · cases hj
    · exact hs.inst j inst' hj
  · have hne : j ≠ i := by
      rintro rfl
      obtain ⟨inst', hi', hop'⟩ := hj
      exact hop (Option.some.inj (hi.symm.trans hi') ▸ hop')
    rw [Creates, hinsts, Arena.get?_erase, if_neg hne]
    exact hs.creates j hj

end Edits

theorem removePhi_ends (hs : f.Thinned (n + 1) h) (p : PhiId) :
    Ends True (Edit.removePhi p) h fun _ g => f.Thinned n g := by
  refine (Edit.removePhi_yields h p fun data hp => hs.sound.linked.phi_result p data hp).ends
    (Edit.removePhi_sound hs.sound p) ?_
  rintro _ g hsound ⟨data, val, hp, -, -, rfl⟩
  have hinsts : ((h.unlistPhi data.block p).dropPhi p data).insts = h.insts := by
    simp [unlistPhi]
  have hphis : ((h.unlistPhi data.block p).dropPhi p data).phis = h.phis.erase p := by
    simp [unlistPhi]
  refine ⟨hsound, hinsts ▸ hs.inst, fun i hi => ?_, ?_⟩
  · rw [Creates, hinsts]
    exact hs.creates i hi
  · have herase := Arena.count_erase hp
    have hcount := hs.phis
    rw [hphis]
    omega

/-- One instruction: a load or a store goes, any other stays. -/
theorem dissolveUse_ends (hs : f.Thinned n h) (c v : ValueId) (i : InstId) :
    Ends True (Edit.dissolveUse c v i) h fun _ g => f.Thinned n g := by
  refine Edit.ends_query_bind fun data hdata => ?_
  obtain ⟨inst, hi, hop⟩ := hs.inst i data (inst_eq_ok.1 hdata)
  split
  · exact .pure hs
  have hremove : ∀ {g}, f.Thinned n g → data.opcode ≠ .newRef →
      Ends True (Edit.removeInst i) g fun _ g' => f.Thinned n g' :=
    fun hg hne => hg.removeOther_ends hi (hop ▸ hne)
  split
  · rename_i hload
    have hne : data.opcode ≠ .newRef := by simp [hload]
    split
    · refine .bind (.discard (hs.replaceAllUses_ends _ v)) fun _ g hg => ?_
      exact .bind (hremove hg hne) fun _ _ hg' => .pure hg'
    · exact .bind (hremove hs hne) fun _ _ hg' => .pure hg'
  · rename_i hstore
    have hne : data.opcode ≠ .newRef := by simp [hstore]
    split
    · exact .throw _ trivial
    · exact .bind (hremove hs hne) fun _ _ hg' => .pure hg'
  · refine .bind (Ends.forM (I := fun _ g => f.Thinned n g) _ ?_ hs) fun _ g hg => .pure hg
    exact fun _ e _ _ g hg => hg.setOperand_ends i e.2 v
  · exact .throw _ trivial

theorem walks (f : Func) (n : Nat) (cell : Cell) (phiAt : OrderedMap BlockId PhiId) :
    Edit.Walks cell phiAt (f.Thinned n) fun _ => True where
  use _ v i hg _ := (hg.dissolveUse_ends cell.value v i).imp fun _ _ hg' => ⟨hg', trivial⟩
  phi _ _ _ _ _ _ _ := trivial
  source _ _ p b v _ hg _ := hg.setPhiSource_ends p b v

theorem pruneDeadPhis_ends {phis : List PhiId} (hs : f.Thinned (n + phis.length) h) :
    Ends True (Edit.pruneDeadPhis phis) h fun removed g =>
      f.Thinned (n + (phis.length - removed)) g := by
  refine Edit.ends_query_bind fun live _ => ?_
  obtain ⟨dead, hdead⟩ : ∃ dead, dead = phis.filter fun p => !live.contains p := ⟨_, rfl⟩
  have hle : dead.length ≤ phis.length := hdead ▸ List.length_filter_le _ _
  dsimp only
  rw [← hdead]
  refine .bind (Ends.forM (I := fun _ g => f.Thinned (n + phis.length) g) _ ?_ hs) fun _ g hg =>
    .bind (Ends.forM (I := fun done g => f.Thinned (n + (phis.length - done.length)) g) _ ?_ hg)
    fun _ g hg => .pure hg
  · intro _ p _ _ g hg
    refine Edit.ends_query_bind fun phi _ =>
      Ends.forM (I := fun _ g => f.Thinned (n + phis.length) g) _ ?_ hg
    exact fun _ pred _ _ g hg => .discard (hg.removePhiSource_ends p pred)
  · intro done p rest hsplit g hg
    have hlength : done.length + 1 ≤ dead.length := by
      rw [hsplit, List.length_append, List.length_cons]
      omega
    have hone : n + (phis.length - done.length) = n + (phis.length - (done ++ [p]).length) + 1 := by
      rw [List.length_append, List.length_singleton]
      omega
    exact (hone ▸ hg).removePhi_ends p

theorem foldlM_addPhi_ends (hs : f.Thinned n h) {bs : List BlockId} (hbs : bs.Nodup) :
    Ends True (bs.foldlM (fun m b => return m.insert b (← Edit.addPhi b)) ∅ :
      Edit (OrderedMap BlockId PhiId)) h fun phiAt g => f.Thinned (n + phiAt.size) g := by
  refine (Ends.foldlM (I := fun done (phiAt : OrderedMap BlockId PhiId) g =>
    f.Thinned (n + phiAt.size) g ∧ ∀ b p, phiAt.get? b = some p → b ∈ done) bs ?_
    ⟨?_, ?_⟩).imp fun _ _ hg => hg.1
  rotate_left
  · exact hs
  · intro b p hb
    cases hb
  rintro done b rest hsplit phiAt g ⟨hg, hdone⟩
  refine .bind (hg.addPhi_ends b) fun p g hg => .pure ⟨?_, fun c q hq => ?_⟩
  · have hnew : phiAt.get? b = none := by
      by_contra hsome
      obtain ⟨q, hq⟩ := Option.ne_none_iff_exists'.1 hsome
      exact notMem_done hbs hsplit (hdone b q hq)
    rwa [OrderedMap.size_insert hnew, ← Nat.add_assoc]
  · rw [OrderedMap.get?_insert] at hq
    split at hq
    · subst c
      simp
    · exact List.mem_append_left _ (hdone c q hq)

theorem rename_ends (hs : f.Thinned n h) (d : Dominance) (cell : Cell) :
    Ends True (Edit.rename d cell) h fun kept g => f.Thinned (n + kept) g := by
  refine .bind (Ends.mapM (I := f.Thinned n) (fun u _ g hg =>
    Edit.ends_query_bind fun _ _ => .pure hg) hs) fun stores g hg => ?_
  refine .bind (hg.foldlM_addPhi_ends (OrderedSet.toList_nodup _)) fun phiAt g hg => ?_
  refine .bind ((walks f _ cell phiAt).renameFrom _ _ hg trivial) fun _ g hg => ?_
  have hsize : phiAt.values.length = phiAt.size := by
    rw [OrderedMap.values, List.length_map, OrderedMap.size]
  refine .bind (pruneDeadPhis_ends (hsize.symm ▸ hg)) fun removed g hg => .pure ?_
  rwa [← hsize]

theorem dissolve_ends (hf : f.Sound) (hc : cell.IsIn f d) :
    Ends True (Edit.dissolve d cell) f fun how g => f.Thinned how.phis g := by
  have hs : f.Thinned 0 f := .refl hf
  unfold Edit.dissolve
  split
  · exact .pure hs
  split
  · refine .bind (Ends.forM (I := fun _ g => f.Thinned 0 g) _ ?_ hs) fun _ g hg => .pure hg
    exact fun _ u _ _ g hg => .discard (hg.dissolveUse_ends cell.value cell.initial u.inst)
  split
  · rename_i hall
    refine .bind (Ends.forM (I := fun _ g => f.Thinned 0 g) _ ?_ hs) fun _ g hg => .pure hg
    intro done u rest hsplit g hg
    have hu : u ∈ cell.uses := by
      rw [hsplit]
      simp
    obtain ⟨inst, hi, -, -, hfits⟩ := hc.use u hu
    have hstore := List.all_eq_true.1 hall u hu
    cases u with
    | store i => exact hg.removeOther_ends hi (by simp [hfits.1])
    | load i => cases hstore
    | capture i => cases hstore
  refine .bind (Ends.mapM (I := f.Thinned 0) (fun u _ g hg =>
    Edit.ends_query_bind fun _ _ => .pure hg) hs) fun blocks g hg => ?_
  split
  · refine Edit.ends_query_bind fun insts _ => .bind (.discard
      (((walks f 0 cell ∅).foldlM hg trivial insts).imp fun _ _ hg' => hg'.1)) ?_
    exact fun _ _ hg' => .pure hg'
  · refine .bind (hg.rename_ends d cell) fun kept _ hg' => .pure ?_
    rwa [Nat.zero_add] at hg'

end Thinned

/-- What a try of a cell has done: nothing but filling the cache, or its creation has gone last. -/
def Tried (f : Func) (i : InstId) (outcome : Outcome) (g : Func) : Prop :=
  match outcome with
  | .skipped _ => f.SameButCache g
  | .promoted how => ∃ h, f.Thinned how.phis h ∧ f.Creates i ∧ g.insts = h.insts.erase i ∧
      g.phis = h.phis

def creationCount (f : Func) : Nat := f.insts.countP fun inst => inst.opcode = .newRef

theorem creates_iff : f.Creates i ↔
    ((f.insts.get? i).any fun inst => decide (inst.opcode = .newRef)) = true := by
  rw [Option.any_eq_true]
  simp only [decide_eq_true_eq]
  rfl

structure Accounts (f : Func) (stats : PromotionStats) (g : Func) : Prop where
  creations : f.creationCount = g.creationCount + stats.promoted
  phis : g.phis.count = f.phis.count + stats.phis
  insts : f.insts.count = g.insts.count + stats.removed

theorem Thinned.creationCount_eq (hs : f.Thinned n g) : g.creationCount = f.creationCount := by
  refine Arena.countP_congr fun i => Bool.eq_iff_iff.2 ?_
  rw [← creates_iff, ← creates_iff]
  refine ⟨fun ⟨inst, hi, hop⟩ => ?_, hs.creates i⟩
  obtain ⟨inst', hi', hop'⟩ := hs.inst i inst hi
  exact ⟨inst', hi', hop'.symm.trans hop⟩

theorem Thinned.insts_count_le (hs : f.Thinned n g) : g.insts.count ≤ f.insts.count := by
  rw [Arena.count_eq_countP, Arena.count_eq_countP]
  refine Arena.countP_le fun i hi => ?_
  obtain ⟨inst, hinst, -⟩ := (Option.any_eq_true ..).1 hi
  obtain ⟨inst', hi', -⟩ := hs.inst i inst hinst
  rw [hi', Option.any_some]

theorem Accounts.add {stats : PromotionStats} (ha : f.Accounts stats h) {outcome : Outcome}
    (ht : h.Tried i outcome g) :
    f.Accounts (stats.add (h.insts.count - g.insts.count) outcome) g := by
  cases outcome with
  | skipped why =>
    obtain ⟨x, rfl⟩ := ht
    exact ⟨ha.creations, ha.phis, ha.insts⟩
  | promoted how =>
    obtain ⟨k, hk, ⟨inst, hi, hop⟩, hinsts, hphis⟩ := ht
    obtain ⟨inst', hi', hop'⟩ := hk.creates i ⟨inst, hi, hop⟩
    have hcreations : g.creationCount + 1 = h.creationCount := by
      rw [← hk.creationCount_eq, creationCount, hinsts]
      exact Arena.countP_erase hi' (by simp [hop'])
    have hcount : g.insts.count + 1 = k.insts.count := hinsts ▸ Arena.count_erase hi'
    have hle := hk.insts_count_le
    have hphis' : g.phis.count = h.phis.count + how.phis := hphis ▸ hk.phis
    obtain ⟨hc, hp, hn⟩ := ha
    refine ⟨?_, ?_, ?_⟩ <;> dsimp only [PromotionStats.add] <;> omega

end Func

namespace Edit

open Func

theorem contains_of_promotable {r : Except Rejection Cell}
    (h : f.promotable captured d i = .ok r) : f.insts.contains i = true := by
  cases hi : f.insts.get? i with
  | some inst => exact Option.isSome_iff_exists.2 ⟨inst, hi⟩
  | none =>
    have hmissing : f.inst i = .error (.noInst i) := by rw [inst, hi]
    unfold promotable at h
    rw [hmissing] at h
    cases h

theorem promoteCell_tried (hf : f.Sound) (captured : Bool) (i : InstId) :
    Ends True (promoteCell captured i) f fun outcome g =>
      g.Sound ∧ f.Tried i outcome g ∧ f.insts.contains i = true := by
  refine .bind ((dominance_yields hf.coherent).ends (dominance_sound hf) fun d g hg hd =>
    (⟨hg, d, hd.2⟩ : g.Sound ∧ f.SameButCache g)) ?_
  rintro d h ⟨hsound, x, rfl⟩
  refine ends_query_bind fun verdict hverdict => ?_
  have hlive := contains_of_promotable hverdict
  split
  · exact .pure ⟨hsound, ⟨x, rfl⟩, hlive⟩
  · rename_i cell
    obtain ⟨rfl, hc⟩ := promotable_accepts hsound hverdict
    obtain ⟨inst, hi, hop, -⟩ := hc.creation
    refine .bind (Thinned.dissolve_ends hsound hc) fun how k hk => ?_
    refine .bind (hk.removeInst_ends _) ?_
    rintro _ g ⟨hg, hinsts, hphis, -⟩
    exact .pure ⟨hg, ⟨k, ⟨hk.sound, hk.inst, hk.creates, hk.phis⟩, ⟨inst, hi, hop⟩, hinsts, hphis⟩,
      hlive⟩

theorem promoteCounted_tried (hf : f.Sound) (captured : Bool) (i : InstId) :
    Ends True (promoteCounted captured i) f fun r g =>
      g.Sound ∧ f.Tried i r.1 g ∧ f.insts.contains i = true ∧
        r.2 = f.insts.count - g.insts.count := by
  refine .get_bind (.bind (promoteCell_tried hf captured i) ?_)
  rintro outcome g ⟨hg, ht, hi⟩
  exact .get_bind (.pure ⟨hg, ht, hi, rfl⟩)

/-- The cells listed are as many as there are creations in reachable blocks. -/
theorem cells_ends (hf : f.Sound) : Ends True cells f fun is g => g.Sound ∧ f.SameButCache g ∧
    is.length = f.insts.countP fun inst =>
      inst.opcode = .newRef && f.reachableBlocks.contains inst.block := by
  refine ends_true.2 fun is g hrun => ?_
  obtain ⟨d, h, hdominance, -⟩ := apply_bind_eq_ok.1 hrun
  have hsound := dominance_sound hf
  rw [hdominance] at hsound
  obtain ⟨hd, rfl⟩ := (dominance_yields hf.coherent).of_ok hdominance
  obtain ⟨rfl, hnodup, hmem⟩ := (cells_ensures hf hd).of_ok hrun
  refine ⟨hsound, ⟨some d, rfl⟩, Arena.length_eq_countP hnodup fun i => ?_⟩
  rw [hmem, Option.any_eq_true]
  simp only [Bool.and_eq_true, decide_eq_true_eq, List.contains_iff_mem,
    mem_reachableBlocks hf.linked, hf.linked.reaches_iff]

theorem foldlM_promoteCounted_accounts {stats : PromotionStats} (hg : g.Sound)
    (ha : f.Accounts stats g) (captured : Bool) (is : List InstId) :
    Ends True (is.foldlM (fun stats i => do
      let (outcome, removed) ← promoteCounted captured i
      return stats.add removed outcome) stats) g fun stats' g' =>
        f.Accounts stats' g' ∧
          stats'.promoted + stats'.skipped = stats.promoted + stats.skipped + is.length := by
  refine (Ends.foldlM (I := fun done stats' g' => g'.Sound ∧ f.Accounts stats' g' ∧
    stats'.promoted + stats'.skipped = stats.promoted + stats.skipped + done.length) is ?_
    ⟨hg, ha, rfl⟩).imp fun _ _ h => h.2
  rintro done i rest - stats' h ⟨hh, ha, htotal⟩
  refine .bind (promoteCounted_tried hh captured i) ?_
  rintro ⟨outcome, removed⟩ g' ⟨hg', ht, -, rfl⟩
  refine .pure ⟨hg', ha.add ht, ?_⟩
  rw [List.length_append, List.length_singleton]
  cases outcome <;> dsimp only [PromotionStats.add] <;> omega

theorem promoteAll_ends (hf : f.Sound) (captured : Bool) :
    Ends True (promoteAll captured) f fun stats g => f.Accounts stats g ∧
      stats.promoted + stats.skipped = f.insts.countP fun inst =>
        inst.opcode = .newRef && f.reachableBlocks.contains inst.block := by
  refine .bind (cells_ends hf) ?_
  rintro is g ⟨hg, ⟨x, rfl⟩, hlength⟩
  refine (foldlM_promoteCounted_accounts (f := f) hg ⟨rfl, rfl, rfl⟩ captured is).imp ?_
  rintro stats g' ⟨ha, htotal⟩
  exact ⟨ha, by rw [htotal, hlength]; simp⟩

end Edit

structure PromotionStats.ToldBy (stats : PromotionStats) (log : EventLog) : Prop where
  promoted : log.countOf .cellPromoted = stats.promoted
  phis : log.countOf .phiInserted = stats.phis
  removed : log.countOf .instRemoved = stats.removed
  only : ∀ e ∈ log.events,
    e.kind = .cellPromoted ∨ e.kind = .phiInserted ∨ e.kind = .instRemoved
  changed : (!log.isEmpty) = stats.changed

theorem EventLog.countOf_merge (l l' : EventLog) (kind : EventKind) :
    (l.merge l').countOf kind = l.countOf kind + l'.countOf kind := by
  simp [countOf, ofKind, merge]

/-- Each promotion is told once, each phi and each instruction gone once. -/
theorem Pass.countOf_promotionEvents (id : FuncId) (b : BlockId) (i : InstId) (removed : Nat)
    (how : Promotion) :
    let log : EventLog := ⟨promotionEvents id b i removed (.promoted how)⟩
    log.countOf .cellPromoted = 1 ∧ log.countOf .phiInserted = how.phis ∧
      log.countOf .instRemoved = removed := by
  simp [EventLog.countOf, EventLog.ofKind, promotionEvents]

namespace PromotionStats.ToldBy

theorem add {stats : PromotionStats} {log : EventLog} (ht : stats.ToldBy log) (id : FuncId)
    (b : BlockId) (i : InstId) (removed : Nat) (outcome : Outcome) :
    (stats.add removed outcome).ToldBy
      (log.merge ⟨Pass.promotionEvents id b i removed outcome⟩) := by
  cases outcome with
  | skipped why =>
    have hsame : log.merge ⟨Pass.promotionEvents id b i removed (.skipped why)⟩ = log := by
      simp [EventLog.merge, Pass.promotionEvents]
    rw [hsame]
    exact ⟨ht.promoted, ht.phis, ht.removed, ht.only, ht.changed⟩
  | promoted how =>
    obtain ⟨hcells, hphis, hinsts⟩ := Pass.countOf_promotionEvents id b i removed how
    refine ⟨?_, ?_, ?_, fun e he => ?_, ?_⟩
    · rw [EventLog.countOf_merge, ht.promoted, hcells]
      rfl
    · rw [EventLog.countOf_merge, ht.phis, hphis]
      rfl
    · rw [EventLog.countOf_merge, ht.removed, hinsts]
      rfl
    · rcases List.mem_append.1 he with he | he
      · exact ht.only e he
      · simp only [Pass.promotionEvents, List.cons_append, List.mem_cons, List.mem_append,
          List.mem_replicate] at he
        rcases he with rfl | ⟨-, rfl⟩ | ⟨-, rfl⟩ <;> simp
    · simp [EventLog.merge, EventLog.isEmpty, Pass.promotionEvents, PromotionStats.add,
        PromotionStats.changed]

end PromotionStats.ToldBy

theorem Visit.edit_bind_ends {σ α β : Type} {mayFail : Prop} {v : VisitState σ} {e : Edit α}
    {k : α → Visit σ β} {a : α} {Q : β → VisitState σ → Prop} (he : e.apply v.func = (.ok a, g))
    (hk : Ends mayFail (k a) { v with func := g } Q) : Ends mayFail (Visit.edit e >>= k) v Q := by
  have hout : outcome e v.func = (.ok a, g) := he
  refine .bind (Visit.edit_ends (Q := fun a' w => a' = a ∧ w = { v with func := g }) ?_) ?_
  · rw [Ends, hout]
    exact ⟨rfl, rfl⟩
  · rintro _ _ ⟨rfl, rfl⟩
    exact hk

namespace Pass

variable {σ : Type}

/-- The pass goes through the cells in step with a run that succeeds: the function is the same after
each try, and the events tell the numbers. -/
theorem foldlM_promotion_ends (id : FuncId) {is : List InstId} {v : VisitState σ}
    {stats stats' : PromotionStats} {changes : List Event} (hf : v.func.Sound)
    (hrun : (is.foldlM (fun stats i => do
      let (outcome, removed) ← Edit.promoteCounted captured i
      return stats.add removed outcome) stats : Edit PromotionStats).apply v.func = (.ok stats', g))
    (ht : stats.ToldBy ⟨changes⟩) :
    Ends False (is.foldlM (fun changes i => do
      let b := (← Visit.edit (Edit.query (·.inst i))).block
      let (outcome, removed) ← Visit.edit (Edit.promoteCounted captured i)
      return changes ++ promotionEvents id b i removed outcome) changes : Visit σ (List Event)) v
      fun changes' w => w = { v with func := g } ∧ stats'.ToldBy ⟨changes'⟩ := by
  induction is generalizing v stats changes with
  | nil =>
    obtain ⟨hstats, hg⟩ := Prod.mk.inj hrun
    obtain rfl := Except.ok.inj hstats
    exact .pure ⟨by rw [← hg], ht⟩
  | cons i is ih =>
    rw [List.foldlM_cons] at hrun ⊢
    obtain ⟨stats₁, h, hfirst, hrest⟩ := Edit.apply_bind_eq_ok.1 hrun
    obtain ⟨⟨outcome, removed⟩, h', htry, hreturn⟩ := Edit.apply_bind_eq_ok.1 hfirst
    obtain ⟨hstats, rfl⟩ := Prod.mk.inj hreturn
    obtain rfl := Except.ok.inj hstats
    -- The instruction that the pass reads first is there, or the try would fail.
    obtain ⟨hsound, -, hlive, -⟩ :=
      ends_true.1 (Edit.promoteCounted_tried hf captured i) _ _ htry
    obtain ⟨inst, hi⟩ := Option.isSome_iff_exists.1 hlive
    have hread : (Edit.query (·.inst i)).apply v.func = (.ok inst, v.func) := by
      rw [Edit.apply_query, Func.inst_eq_ok.2 hi]
    refine .bind (R := fun changes₁ w => w = { v with func := h' } ∧
      (stats.add removed outcome).ToldBy ⟨changes₁⟩) ?_ ?_
    · exact Visit.edit_bind_ends hread (Visit.edit_bind_ends htry
        (.pure ⟨rfl, ht.add id inst.block i removed outcome⟩))
    · rintro changes₁ _ ⟨rfl, ht₁⟩
      exact ih hsound hrest ht₁

/-- The pass does what a run over all cells does, and the numbers of the run are exact: so many events
of each kind are told, so many creations, instructions and phis has the function less or more, and
every creation in a reachable block was promoted or skipped. -/
theorem promotion_agrees_with_promoteAll {f g : Func} (hf : f.Built) {captured : Bool}
    {stats : PromotionStats} (hrun : (Edit.promoteAll captured).apply f = (.ok stats, g))
    (id : FuncId) (v : VisitState σ) (hfunc : v.func = f)
    (hconfig : v.context.config.promoteCaptured = captured) :
    (∃ log : EventLog,
      outcome (promotion.visit id : Visit σ Bool) v = (.ok stats.changed,
        { v with
          func := g
          context := { v.context with events := v.context.events.merge log } }) ∧
      log.countOf .cellPromoted = stats.promoted ∧ log.countOf .phiInserted = stats.phis ∧
      log.countOf .instRemoved = stats.removed ∧
      ∀ e ∈ log.events, e.kind = .cellPromoted ∨ e.kind = .phiInserted ∨ e.kind = .instRemoved) ∧
    (f.insts.countP fun inst => inst.opcode = .newRef) =
      (g.insts.countP fun inst => inst.opcode = .newRef) + stats.promoted ∧
    (f.insts.countP fun inst =>
      inst.opcode = .newRef && f.reachableBlocks.contains inst.block) =
      stats.promoted + stats.skipped ∧
    g.phis.count = f.phis.count + stats.phis ∧
    f.insts.count = g.insts.count + stats.removed := by
  subst hfunc hconfig
  obtain ⟨ha, htotal⟩ := ends_true.1 (Edit.promoteAll_ends hf.sound _) stats g hrun
  refine ⟨?_, ha.creations, htotal.symm, ha.phis, ha.insts⟩
  obtain ⟨is, h, hcells, hrest⟩ := Edit.apply_bind_eq_ok.1 hrun
  obtain ⟨hsound, -⟩ := ends_true.1 (Edit.cells_ends hf.sound) is h hcells
  have hvisit : Ends False (promotion.visit id : Visit σ Bool) v fun changed w =>
      changed = stats.changed ∧ ∃ log, stats.ToldBy log ∧ w = { v with
        func := g
        context := { v.context with events := v.context.events.merge log } } := by
    have hnone : PromotionStats.ToldBy {} ⟨[]⟩ := ⟨rfl, rfl, rfl, nofun, rfl⟩
    refine .get_bind (Visit.edit_bind_ends hcells (.bind
      (foldlM_promotion_ends id (v := { v with func := h }) hsound hrest hnone) ?_))
    rintro changes w ⟨rfl, ht⟩
    exact .bind (.modify rfl) fun _ w hw => .pure ⟨ht.changed, ⟨changes⟩, ht, hw⟩
  obtain ⟨_, w, hout, rfl, log, ht, rfl⟩ := ends_false.1 hvisit
  exact ⟨log, hout, ht.promoted, ht.phis, ht.removed, ht.only⟩

end Pass

/-- A cell with a store on one of two ways to its load, a cell that a call gets at, and a cell in a
block that is never reached. -/
def threeCells : List Call :=
  [.addArgument, .addArgument, .addBlock, .addBlock, .addBlock,
    .append ⟨0⟩ .newRef [⟨0⟩], .append ⟨0⟩ .newRef [⟨0⟩], .append ⟨0⟩ .call [⟨0⟩, ⟨3⟩],
    .append ⟨0⟩ (.condBranch ⟨1⟩ ⟨2⟩) [⟨0⟩], .append ⟨1⟩ .setRef [⟨2⟩, ⟨1⟩],
    .append ⟨1⟩ (.branch ⟨2⟩) [], .append ⟨2⟩ .getRef [⟨2⟩], .append ⟨2⟩ .ret [⟨5⟩],
    .append ⟨3⟩ .newRef [⟨0⟩]]

/-- The first cell is promoted with a phi, and its creation, load and store go; the second is skipped,
and the third is not tried. -/
theorem threeCells_promotion :
    ∃ (f g : Func) (log : EventLog),
      f = threeCells.foldl (fun f c => c.run f) (Func.new "f") ∧
      (Edit.promoteAll true).apply f = (.ok ⟨1, 1, 1, 3⟩, g) ∧
      outcome (Pass.promotion.visit ⟨0⟩ : Visit Unit Bool) ⟨f, {}, ()⟩ =
        (.ok true, ⟨g, { events := log }, ()⟩) ∧
      log.countOf .cellPromoted = 1 ∧ log.countOf .phiInserted = 1 ∧
      log.countOf .instRemoved = 3 ∧ g.phis.count = 1 := by
  obtain ⟨f, hf⟩ : ∃ f : Func, f = threeCells.foldl (fun f c => c.run f) (Func.new "f") := ⟨_, rfl⟩
  have hrun : ((Edit.promoteAll true).apply f).1.toOption = some ⟨1, 1, 1, 3⟩ := by
    rw [hf]
    decide +kernel
  have hphis : f.phis.count = 0 := by
    rw [hf]
    decide +kernel
  rcases hg : (Edit.promoteAll true).apply f with ⟨err | stats, g⟩
  · rw [hg] at hrun
    cases hrun
  · rw [hg] at hrun
    obtain rfl := Option.some.inj hrun
    obtain ⟨⟨log, hvisit, hcells, hinserted, hremoved, -⟩, -, -, hcount, -⟩ :=
      Pass.promotion_agrees_with_promoteAll ⟨"f", threeCells, hf⟩ hg ⟨0⟩ ⟨f, {}, ()⟩ rfl rfl
    exact ⟨f, g, log, hf, hg, hvisit, hcells, hinserted, hremoved,
      hcount.trans (congrArg (· + 1) hphis)⟩

end Midend
