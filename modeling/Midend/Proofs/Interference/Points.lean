import Mathlib.Logic.Pairwise
import Midend.Proofs.Interference
import Midend.Proofs.Liveness.Exact

namespace Midend

/-- A point of a block: where control enters it, or a site behind its phis. The sites of the entry
are behind the arguments as well; between the phis and the arguments nothing is read. -/
inductive Point where
  | enter (b : BlockId)
  | site (s : Site)

def Point.block : Point → BlockId
  | enter b => b
  | site s => s.block

namespace Func

/-- Some way on from a point comes to a consumer of the value, and not first to its definition.
Arguments are defined before the entry, so no step defines them again. -/
inductive LiveAt (f : Func) (v : ValueId) : Point → Prop where
  | read {b : BlockId} {k : Nat} {e : InstId × Inst} : (f.instsOf b)[k]? = some e →
      v ∈ e.2.operands → LiveAt f v (.site ⟨b, k⟩)
  | hand {b : BlockId} : f.Hands v b → LiveAt f v (.site (.exit f b))
  | inst {b : BlockId} {k : Nat} {e : InstId × Inst} : (f.instsOf b)[k]? = some e →
      e.2.result ≠ some v → LiveAt f v (.site ⟨b, k + 1⟩) → LiveAt f v (.site ⟨b, k⟩)
  | edge {b s : BlockId} : s ∈ f.successors b → LiveAt f v (.enter s) →
      LiveAt f v (.site (.exit f b))
  | phis {b : BlockId} : (∀ e ∈ f.phisOf b, e.2.result ≠ v) → LiveAt f v (.site ⟨b, 0⟩) →
      LiveAt f v (.enter b)

inductive JustDefined (f : Func) : ValueId → Site → Prop where
  | inst {b : BlockId} {k : Nat} {e : InstId × Inst} {v : ValueId} : (f.instsOf b)[k]? = some e →
      e.2.result = some v → JustDefined f v ⟨b, k + 1⟩
  | phi {b : BlockId} {e : PhiId × Phi} : e ∈ f.phisOf b → JustDefined f e.2.result ⟨b, 0⟩
  | argument {v : ValueId} : v ∈ f.arguments → JustDefined f v ⟨f.entry, 0⟩

theorem instsOf_split {f : Func} {b : BlockId} {k : Nat} {e : InstId × Inst}
    (hk : (f.instsOf b)[k]? = some e) : k < (f.instsOf b).length ∧
      (f.instsOf b).drop k = e :: (f.instsOf b).drop (k + 1) ∧
      f.instsOf b = (f.instsOf b).take k ++ e :: (f.instsOf b).drop (k + 1) := by
  obtain ⟨hlt, rfl⟩ := List.getElem?_eq_some_iff.1 hk
  have hdrop := List.drop_eq_getElem_cons hlt
  exact ⟨hlt, hdrop, by rw [← hdrop, List.take_append_drop]⟩

end Func

namespace Liveness

variable {f : Func} {d : Dominance} {l : Liveness} {v : ValueId} {b : BlockId} {p : Point}

/-- What the analysis of blocks says about a value that is live at a point. -/
def Needs (l : Liveness) (f : Func) (v : ValueId) : Point → Prop
  | .enter b => l.isLiveIn v b = true ∨ b = f.entry ∧ v ∈ f.arguments
  | .site ⟨b, k⟩ => k ≤ (f.instsOf b).length ∧
      (l.isLiveOut v b = true ∨ ∃ e ∈ (f.instsOf b).drop k, v ∈ e.2.operands) ∧
      ∀ e ∈ (f.instsOf b).drop k, e.2.result ≠ some v

theorem needs_exit (h : l.isLiveOut v b = true) : l.Needs f v (.site (.exit f b)) :=
  ⟨Nat.le_refl _, .inl h, by simp⟩

namespace IsOf

/-- The analysis of blocks knows of every value that is live at a point. The induction goes back
from the consumer. -/
theorem needs_of_liveAt (hl : l.IsOf f d) (hf : f.Sound) (hv : f.Verified d)
    (hc : l.isCandidate v = true) (h : f.LiveAt v p) (hp : d.isReachable p.block = true) :
    l.Consumed v ∧ l.Needs f v p := by
  have hd := hv.dominance
  induction h with
  | @read b k e hk hread =>
    obtain ⟨hlt, hdrop, hsplit⟩ := Func.instsOf_split hk
    have hcons := hl.consumes_operand hd hp (List.mem_of_getElem? hk) hread
    refine ⟨⟨b, hl.dom ▸ hcons⟩, hlt.le, ?_⟩
    rw [hdrop]
    exact ⟨.inr ⟨e, List.mem_cons_self, hread⟩, hv.operand_not_defined hf hp hsplit hread⟩
  | @hand b hhands =>
    obtain ⟨s, hs, e, he, hsource⟩ := hhands
    have hreach := (hf.successor_reachable hd hp hs).2
    exact (hl.liveOut_of_source hf hd hc hreach hp he hsource).imp_right needs_exit
  | @inst b k e hk hne _ ih =>
    obtain ⟨hcons, -, hneed, hdef⟩ := ih hp
    obtain ⟨hlt, hdrop, -⟩ := Func.instsOf_split hk
    refine ⟨hcons, hlt.le, ?_⟩
    rw [hdrop]
    refine ⟨hneed.imp_right ?_, List.forall_mem_cons.2 ⟨hne, hdef⟩⟩
    exact fun ⟨e', he', hread⟩ => ⟨e', List.mem_cons_of_mem _ he', hread⟩
  | @edge b s hs _ ih =>
    obtain ⟨hpred, hreach⟩ := hf.successor_reachable hd hp hs
    -- Coming into a successor, or an argument that goes once more through the entry.
    obtain ⟨hcons, hin | ⟨rfl, harg⟩⟩ := ih hreach
    · exact ⟨hcons, needs_exit (hl.liveOut_of_liveIn hf hd hcons hin hpred)⟩
    · exact ⟨hcons, needs_exit (hl.liveOut_of_argument hf hd hc hcons harg hpred)⟩
  | @phis b hnone _ ih =>
    obtain ⟨hcons, -, hneed, hdef⟩ := ih hp
    refine ⟨hcons, ?_⟩
    rcases Interference.mem_startOf_iff.1 (hl.mem_startOf hf hd hp hc hneed hdef) with
      hin | ⟨e, he, hr⟩ | harg
    · exact .inl hin
    · exact absurd hr (hnone e he)
    · exact .inr harg

theorem mem_startOf_of_liveAt (hl : l.IsOf f d) (hf : f.Sound) (hv : f.Verified d)
    (hc : l.isCandidate v = true) (hb : d.isReachable b = true)
    (h : f.LiveAt v (.enter b) ∨ f.LiveAt v (.site ⟨b, 0⟩)) :
    v ∈ Interference.startOf f l b := by
  rcases h with h | h
  · obtain ⟨-, hin | harg⟩ := hl.needs_of_liveAt hf hv hc h hb
    · exact Interference.mem_startOf_iff.2 (.inl hin)
    · exact Interference.mem_startOf_iff.2 (.inr (.inr harg))
  · obtain ⟨-, -, hneed, hdef⟩ := hl.needs_of_liveAt hf hv hc h hb
    exact hl.mem_startOf hf hv.dominance hb hc hneed hdef

theorem phi_isCandidate_iff (hl : l.IsOf f d) (hf : f.Sound) (hplain : f.Plain) (hd : d.IsOf f)
    {e : PhiId × Phi} (he : e ∈ f.phisOf b) :
    l.isCandidate e.2.result = true ↔ d.isReachable b = true := by
  obtain ⟨data, hdata, hmem, hphi⟩ := Func.mem_phisOf.1 he
  obtain ⟨phi, hphi', hblock⟩ := hf.linked.listed_phi b data e.1 hdata hmem
  obtain rfl := Option.some.inj (hphi.symm.trans hphi')
  obtain ⟨val, hval, hdef⟩ := hf.linked.phi_result e.1 e.2 hphi
  have hdefined : ∀ c, f.DefinedIn e.2.result c ↔ b = c := fun c =>
    hblock ▸ Func.definedIn_of_phi hval hdef hphi
  rw [hl.isCandidate_iff_defined hf hd]
  constructor
  · rintro ⟨-, harg | ⟨c, hc, hreach⟩⟩
    · obtain ⟨val', n, hval', hdef'⟩ := (hf.linked.argument_iff _).1 harg
      obtain rfl := Option.some.inj (hval.symm.trans hval')
      cases hdef.symm.trans hdef'
    · rwa [(hdefined c).1 hc]
  · exact fun hb => ⟨⟨val, hval, (hplain _ val hval).phi e.1 hdef⟩,
      .inr ⟨b, (hdefined b).2 rfl, hb⟩⟩

end IsOf

end Liveness

namespace Interference

variable {f : Func} {d : Dominance} {l : Liveness} {G : Interference} {b : BlockId} {k : Nat}
  {v w : ValueId} {live : OrderedSet ValueId} {e : InstId × Inst} {es pre : List (InstId × Inst)}

/-- Between two instructions of a block the scan holds all values that are live there, and they are
neighbours. -/
structure Scanned (G : Interference) (f : Func) (l : Liveness) (b : BlockId)
    (es : List (InstId × Inst)) (live : OrderedSet ValueId) : Prop where
  holds : l.Holds b es live
  clear : G.Clear f l b live es
  pairwise : {v | v ∈ live}.Pairwise G.Edge

theorem Covers.scanned (hG : G.Covers f l b) (hl : l.IsOf f d) (hf : f.Sound) (hd : d.IsOf f)
    (hb : d.isReachable b = true) : ∃ live, G.Scanned f l b (f.instsOf b) live := by
  obtain ⟨hstart, live, hlive, hclear⟩ := hG
  refine ⟨live, hl.holds_start hf hd hb hlive, hclear, fun v hv w hw hne => ?_⟩
  obtain ⟨hv, hcv⟩ := (hlive v).1 hv
  obtain ⟨hw, hcw⟩ := (hlive w).1 hw
  exact hstart v hv w hw hcv hcw hne

/-- The values that are kept at an instruction were neighbours before, and the result becomes a
neighbour of all of them. -/
theorem Scanned.step (h : G.Scanned f l b (e :: es) live) (hl : l.IsOf f d) (hf : f.Sound)
    (hd : d.IsOf f) (hb : d.isReachable b = true) (hsplit : f.instsOf b = pre ++ e :: es) :
    G.Scanned f l b es (l.after f b live e) := by
  obtain ⟨hresult, hclear⟩ := h.clear
  refine ⟨hl.holds_step hf hd hb hsplit h.holds, hclear, fun v hv w hw hne => ?_⟩
  rcases Liveness.mem_after.1 hv with hv | ⟨hrv, hcv, -⟩ <;>
    rcases Liveness.mem_after.1 hw with hw | ⟨hrw, hcw, -⟩
  · exact h.pairwise (Liveness.mem_kept.1 hv).1 (Liveness.mem_kept.1 hw).1 hne
  · exact (hresult w hrw hcw v hv hne).symm
  · exact hresult v hrv hcv w hw hne.symm
  · exact absurd (Option.some.inj (hrv.symm.trans hrw)) hne

theorem Covers.scanned_drop (hG : G.Covers f l b) (hl : l.IsOf f d) (hf : f.Sound) (hd : d.IsOf f)
    (hb : d.isReachable b = true) (hk : k ≤ (f.instsOf b).length) :
    ∃ live, G.Scanned f l b ((f.instsOf b).drop k) live := by
  induction k with
  | zero => exact hG.scanned hl hf hd hb
  | succ k ih =>
    obtain ⟨live, hlive⟩ := ih (Nat.le_of_succ_le hk)
    obtain ⟨-, hdrop, hsplit⟩ := Func.instsOf_split (List.getElem?_eq_getElem hk)
    rw [hdrop] at hlive
    exact ⟨_, hlive.step hl hf hd hb hsplit⟩

theorem Covers.pairwise_liveAt {p : Point} (hG : G.Covers f l p.block) (hl : l.IsOf f d)
    (hf : f.Sound) (hv : f.Verified d) (hp : d.isReachable p.block = true) :
    {v | l.isCandidate v = true ∧ f.LiveAt v p}.Pairwise G.Edge := by
  rintro v ⟨hcv, hlv⟩ w ⟨hcw, hlw⟩ hne
  cases p with
  | enter b =>
    exact hG.1 v (hl.mem_startOf_of_liveAt hf hv hcv hp (.inl hlv))
      w (hl.mem_startOf_of_liveAt hf hv hcw hp (.inl hlw)) hcv hcw hne
  | site s =>
    obtain ⟨b, k⟩ := s
    obtain ⟨hcons, hk, hneed, hdef⟩ := hl.needs_of_liveAt hf hv hcv hlv hp
    obtain ⟨hcons', -, hneed', hdef'⟩ := hl.needs_of_liveAt hf hv hcw hlw hp
    obtain ⟨live, hlive⟩ := hG.scanned_drop hl hf hv.dominance hp hk
    exact hlive.pairwise (hlive.holds v hcv hcons hneed hdef) (hlive.holds w hcw hcons' hneed' hdef')
      hne

theorem Covers.edge_of_justDefined {s : Site} (hG : G.Covers f l s.block) (hl : l.IsOf f d)
    (hf : f.Sound) (hv : f.Verified d) (hs : d.isReachable s.block = true)
    (hcv : l.isCandidate v = true) (hcw : l.isCandidate w = true) (hne : w ≠ v)
    (hdefined : f.JustDefined v s) (hlw : f.LiveAt w (.site s)) : G.Edge v w := by
  have hd := hv.dominance
  -- At the start of a block, all that has just been defined comes together with the rest.
  have hstart : ∀ b, G.Covers f l b → d.isReachable b = true → f.LiveAt w (.site ⟨b, 0⟩) →
      v ∈ startOf f l b → G.Edge v w := fun b hG hb hlw hv' =>
    hG.1 v hv' w (hl.mem_startOf_of_liveAt hf hv hcw hb (.inr hlw)) hcv hcw hne.symm
  cases hdefined with
  | @inst b k e _ hk hr =>
    obtain ⟨hlt, hdrop, hsplit⟩ := Func.instsOf_split hk
    obtain ⟨live, hlive⟩ := hG.scanned_drop hl hf hd hs hlt.le
    obtain ⟨hcons, -, hneed, hdef⟩ := hl.needs_of_liveAt hf hv hcw hlw hs
    rw [hdrop] at hlive
    have hafter := (hlive.step hl hf hd hs hsplit).holds w hcw hcons hneed hdef
    refine hlive.clear.1 v hr hcv w ((Liveness.mem_after.1 hafter).resolve_right ?_) hne
    exact fun h => hne (Option.some.inj (h.1.symm.trans hr))
  | @phi b e he =>
    exact hstart b hG hs hlw (mem_startOf_iff.2 (.inr (.inl ⟨e, he, rfl⟩)))
  | argument harg => exact hstart f.entry hG hs hlw (mem_startOf_iff.2 (.inr (.inr ⟨rfl, harg⟩)))

end Interference

/-- Candidates that are live at one point are neighbours, and one that has just been defined is a
neighbour of all others that are live there, even if it is never used. The phi results of a
reachable block are neighbours of each other, and so are the arguments. -/
theorem Edit.edge_of_liveAt (f : Func) (hf : f.Built) (hv : (Edit.verify.apply f).1 = .ok ()) :
    ∃ l G, (Edit.liveness.apply f).1 = .ok l ∧ (Edit.interference.apply f).1 = .ok G ∧
      (∀ p : Point, f.toFlowGraph.Reaches f.entry p.block →
        {v | l.isCandidate v = true ∧ f.LiveAt v p}.Pairwise G.Edge) ∧
      (∀ s : Site, f.toFlowGraph.Reaches f.entry s.block → ∀ v w, l.isCandidate v = true →
        l.isCandidate w = true → w ≠ v → f.JustDefined v s → f.LiveAt w (.site s) →
        G.Edge v w) ∧
      (∀ b, f.toFlowGraph.Reaches f.entry b →
        {v | ∃ e ∈ f.phisOf b, e.2.result = v}.Pairwise G.Edge) ∧
      (∀ b, ∀ e ∈ f.phisOf b,
        l.isCandidate e.2.result = true ↔ f.toFlowGraph.Reaches f.entry b) ∧
      {v | v ∈ f.arguments}.Pairwise G.Edge := by
  have hs := hf.sound
  obtain ⟨d, l, G, hverified, hl, hlive, -, hcovers, hrun⟩ := interference_ok hs hv
  have hd := hverified.dominance
  have hreach : ∀ b, f.toFlowGraph.Reaches f.entry b ↔ d.isReachable b = true := fun b =>
    hs.linked.reaches_iff.trans hd.isReachable_iff.symm
  simp only [hreach]
  have hphi : ∀ b, ∀ e ∈ f.phisOf b, l.isCandidate e.2.result = true ↔ d.isReachable b = true :=
    fun b e => hl.phi_isCandidate_iff hs hf.plain hd
  refine ⟨l, G, hlive, by rw [hrun], fun p hp => ?_, fun s hb v w hcv hcw hne hdefined hlw => ?_,
    fun b hb => ?_, hphi, fun v hv w hw hne => ?_⟩
  · exact (hcovers _ hp).pairwise_liveAt hl hs hverified hp
  · exact (hcovers _ hb).edge_of_justDefined hl hs hverified hb hcv hcw hne hdefined hlw
  · rintro _ ⟨e, he, rfl⟩ _ ⟨e', he', rfl⟩
    exact (hcovers b hb).1 _ (Interference.mem_startOf_iff.2 (.inr (.inl ⟨e, he, rfl⟩)))
      _ (Interference.mem_startOf_iff.2 (.inr (.inl ⟨e', he', rfl⟩))) ((hphi b e he).2 hb)
      ((hphi b e' he').2 hb)
  · have hstart : ∀ v ∈ f.arguments, v ∈ Interference.startOf f l f.entry ∧
        l.isCandidate v = true := fun v hv =>
      ⟨Interference.mem_startOf_iff.2 (.inr (.inr ⟨rfl, hv⟩)),
        hl.argument_isCandidate hs hf.plain hd hv⟩
    exact (hcovers f.entry hd.entry_isReachable).1 v (hstart v hv).1 w (hstart w hw).1 (hstart v hv).2
      (hstart w hw).2 hne

/-- Behind the addition both the sum and the argument are live: the argument is read again once
control has come back to the entry. -/
theorem addingLoop_edge :
    ∃ f l G, f.Built ∧ (Edit.verify.apply f).1 = .ok () ∧ (Edit.liveness.apply f).1 = .ok l ∧
      (Edit.interference.apply f).1 = .ok G ∧ f.LiveAt ⟨0⟩ (.site ⟨f.entry, 1⟩) ∧
      f.LiveAt ⟨1⟩ (.site ⟨f.entry, 1⟩) ∧ G.Edge ⟨0⟩ ⟨1⟩ := by
  let f : Func := addingLoop.foldl (fun f c => c.run f) (Func.new "f")
  have hf : f.Built := ⟨"f", addingLoop, rfl⟩
  have hv : (Edit.verify.apply f).1 = .ok () := by decide +kernel
  have hcandidates : (Edit.liveness.apply f).1.toOption.map
      (fun l => (l.isCandidate ⟨0⟩, l.isCandidate ⟨1⟩)) = some (true, true) := by decide +kernel
  have hadd : (f.instsOf f.entry)[0]?.map (·.2.operands) = some [⟨0⟩, ⟨0⟩] := by decide +kernel
  have htest : (f.instsOf f.entry)[1]?.map (fun e => (e.2.operands, e.2.result)) =
      some ([⟨1⟩], none) := by decide +kernel
  have hback : (f.instsOf ⟨1⟩)[0]?.map (·.2.result) = some none := by decide +kernel
  have hends : Site.exit f f.entry = ⟨f.entry, 2⟩ ∧ Site.exit f ⟨1⟩ = ⟨⟨1⟩, 1⟩ := by decide +kernel
  have hphis : (f.phisOf f.entry).isEmpty = true ∧ (f.phisOf ⟨1⟩).isEmpty = true := by
    decide +kernel
  have hsucc : (⟨1⟩ : BlockId) ∈ f.successors f.entry ∧ f.entry ∈ f.successors ⟨1⟩ := by
    decide +kernel
  clear_value f
  obtain ⟨add, hadd, hread⟩ := Option.map_eq_some_iff.1 hadd
  obtain ⟨test, htest, heq⟩ := Option.map_eq_some_iff.1 htest
  obtain ⟨hsum, hnone⟩ := Prod.mk.inj heq
  obtain ⟨jump, hjump, hnone'⟩ := Option.map_eq_some_iff.1 hback
  have hagain : f.LiveAt ⟨0⟩ (.enter f.entry) :=
    .phis (by simp [List.isEmpty_iff.1 hphis.1]) (.read hadd (by simp [hread]))
  have hbehind : f.LiveAt ⟨0⟩ (.enter ⟨1⟩) := by
    have hend := Func.LiveAt.edge hsucc.2 hagain
    rw [hends.2] at hend
    exact .phis (by simp [List.isEmpty_iff.1 hphis.2]) (.inst hjump (by simp [hnone']) hend)
  have hargument : f.LiveAt ⟨0⟩ (.site ⟨f.entry, 1⟩) := by
    have hend := Func.LiveAt.edge hsucc.1 hbehind
    rw [hends.1] at hend
    exact .inst htest (by simp [hnone]) hend
  have hlive : f.LiveAt ⟨1⟩ (.site ⟨f.entry, 1⟩) := .read htest (by simp [hsum])
  obtain ⟨l, G, hl, hG, hpoints, -⟩ := Edit.edge_of_liveAt f hf hv
  rw [hl] at hcandidates
  obtain ⟨hc, hc'⟩ := Prod.mk.inj (Option.some.inj hcandidates)
  refine ⟨f, l, G, hf, hv, hl, hG, hargument, hlive, ?_⟩
  exact hpoints (.site ⟨f.entry, 1⟩) (.refl f.entry) ⟨hc, hargument⟩ ⟨hc', hlive⟩ (by decide)

end Midend
