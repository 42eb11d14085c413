import Midend.Proofs.Edit.Analyses
import Midend.Proofs.Pipeline.Passes
import Midend.Proofs.Promotion.Calls

/-!
Stored results. A pass that changes a function says so, and then what is stored for it is dropped; a
pass that says that it changed nothing has left the function as it was, up to its cached dominance.
So whatever the passes and their order, after a run every stored result is the one that would be
computed from the function as it stands.
-/

namespace Midend

open Work

variable {σ : Type} {f g : Func}

namespace Edit

theorem Keeps.ends {α : Type} {e : Edit α} {P : Func → Prop} (h : e.Keeps P) (hf : P f) :
    Ends True e f fun _ g => P g := by
  refine ends_true.2 fun a g hrun => ?_
  have hg : (e.apply f).2 = g := congrArg Prod.snd hrun
  exact hg ▸ h f hf

theorem removeUnreachable_ends (f : Func) :
    Ends True removeUnreachable f fun removed g => removed = [] → g = f := by
  refine .get_bind ?_
  dsimp only
  split
  · exact .pure fun _ => rfl
  · rename_i hne
    refine .bind (.trivial _ _) fun _ _ _ => .bind (.trivial _ _) fun _ _ _ =>
      .bind (.trivial _ _) fun _ _ _ => .pure fun hnil => ?_
    rw [hnil] at hne
    exact absurd rfl hne

theorem promoteCell_ends (captured : Bool) (i : InstId) (hg : f.SameButCache g) :
    Ends True (promoteCell captured i) g fun outcome h =>
      outcome.isPromoted = false → f.SameButCache h := by
  refine .bind (dominance_keeps_sameButCache.ends hg) fun dom h hh => ?_
  refine .bind ((Keeps.query _).ends hh) fun verdict h hh => ?_
  split
  · exact .pure fun _ => hh
  · exact .bind (.trivial _ _) fun _ _ _ => .bind (.trivial _ _) fun _ _ _ => .pure nofun

end Edit

/-- What is stored for a sound function is what would be computed from it now. -/
structure FuncView.Fresh (coalesce : Bool) (v : FuncView) : Prop where
  sound : v.func.Sound
  slots : ∀ a, v.slots = some a → v.func.Computes (Edit.allocateSlots coalesce) a
  tree : ∀ t, v.tree = some t → v.func.Computes Edit.controlTree t

namespace FuncView.Fresh

variable {coalesce : Bool} {v : FuncView}

theorem of_sound (h : f.Sound) : Fresh coalesce ⟨f, none, none⟩ := ⟨h, nofun, nofun⟩

theorem sameButCache (h : v.Fresh coalesce) (hg : v.func.SameButCache g) (hs : g.Sound) :
    Fresh coalesce { v with func := g } := by
  obtain ⟨x, rfl⟩ := hg
  exact ⟨hs, h.slots, h.tree⟩

theorem verify (h : v.Fresh coalesce) :
    Ends True Edit.verify v.func fun _ g => Fresh coalesce { v with func := g } :=
  (((Edit.verify_keeps_sameButCache).ends (.refl _)).and
    (Edit.Keeps.ends (P := Func.Sound) (fun _ hf => Edit.verify_sound hf) h.sound)).imp
    fun _ _ hg => h.sameButCache hg.1 hg.2

theorem setDominanceLimit (h : v.Fresh coalesce) (limit : Nat) :
    Fresh coalesce { v with func := ((Edit.setDominanceLimit limit).apply v.func).2 } := by
  have hs := Edit.setDominanceLimit_sound h.sound limit
  rw [Edit.setDominanceLimit, Edit.apply_modify] at hs ⊢
  by_cases hlimit : v.func.dominanceLimit = limit
  · rwa [if_pos hlimit]
  · rw [if_neg hlimit] at hs ⊢
    exact ⟨hs, h.slots, h.tree⟩

end FuncView.Fresh

namespace Pass

variable {c : Config} {id : FuncId} {v : VisitState σ}

theorem visit_unchanged {pass : Pass σ} (hpass : pass ∈ (all : List (Pass σ))) :
    Ends True (pass.visit id) v fun changed w => changed = false → v.func.SameButCache w.func := by
  have hanalysis : ∀ {α : Type} {e : Edit α} {q : Func → Dominance → Except Error α}, e.Reads q →
      Ends True e v.func fun _ g => v.func.SameButCache g := by
    intro α e q he
    refine Edit.Keeps.ends (fun g hg => ?_) (.refl _)
    rw [he.apply]
    exact Edit.Keeps.bind Edit.dominance_keeps_sameButCache (fun _ => .query _) g hg
  simp only [all, List.mem_cons, List.not_mem_nil, or_false] at hpass
  rcases hpass with rfl | rfl | rfl | rfl
  · refine (unreachableBlocks_ends (Edit.removeUnreachable_ends v.func)).imp ?_
    rintro _ w ⟨-, removed, hnil, rfl⟩ hunchanged
    rw [hnil (by simpa using hunchanged)]
    exact .refl _
  · refine (promotion_ends (I := fun _ _ changed g => changed = false → v.func.SameButCache g)
      (((cells_keeps Edit.dominance_keeps_sameButCache).ends (.refl _)).imp fun _ _ hg _ => hg)
      fun is done i rest _ changed g hg => ⟨?_, ?_⟩).imp ?_
    · exact (Edit.Keeps.query (P := (· = g)) _).ends rfl
    · cases changed with
      | true =>
        refine (Ends.trivial _ _).imp fun outcome h _ hunchanged => ?_
        exact absurd hunchanged Bool.false_ne_true.symm
      | false => exact Edit.promoteCell_ends _ _ (hg rfl)
    · rintro _ w ⟨-, -, hw⟩
      exact hw
  · refine (allocation_ends (hanalysis (Edit.allocateSlots_reads _))).imp ?_
    rintro _ w ⟨-, -, -, hw, -⟩ -
    exact hw
  · refine (structuring_ends (hanalysis Edit.controlTree_reads)).imp ?_
    rintro _ w ⟨-, -, -, hw, -⟩ -
    exact hw

/-- What is stored after a visit was stored before or has just been computed. -/
theorem visit_stores {pass : Pass σ} (hpass : pass ∈ (all : List (Pass σ))) (hv : v.func.Sound) :
    Ends True (pass.visit id) v fun _ w => v.context.Beside id w.context ∧ w.func.Sound ∧
      (∀ a, (w.view id).slots = some a → (v.view id).slots = some a ∨
        w.func.Computes (Edit.allocateSlots v.context.config.coalesce) a) ∧
      ∀ t, (w.view id).tree = some t → (v.view id).tree = some t ∨
        w.func.Computes Edit.controlTree t := by
  have hlogged : ∀ {w : VisitState σ}, v.context.Logs w.context → w.func.Sound →
      v.context.Beside id w.context ∧ w.func.Sound ∧
        (∀ a, (w.view id).slots = some a → (v.view id).slots = some a ∨
          w.func.Computes (Edit.allocateSlots v.context.config.coalesce) a) ∧
        ∀ t, (w.view id).tree = some t → (v.view id).tree = some t ∨
          w.func.Computes Edit.controlTree t := by
    intro w hlogs hw
    have hview := hlogs.view_eq id w.func
    refine ⟨hlogs.beside id, hw, fun a ha => .inl ?_, fun t ht => .inl ?_⟩
    · exact (congrArg FuncView.slots hview).symm.trans ha
    · exact (congrArg FuncView.tree hview).symm.trans ht
  have hanalysis : ∀ {α : Type} {e : Edit α} {q : Func → Dominance → Except Error α}, e.Reads q →
      Ends True e v.func fun a g => g.Sound ∧ g.Computes e a := by
    intro α e q he
    refine ends_true.2 fun a g hrun => ?_
    have hcomputes := he.computes_of_ok hv.coherent hrun
    obtain ⟨d, hd, -, rfl⟩ := he.of_ok hv.coherent hrun
    refine ⟨hv.of_fields rfl rfl rfl rfl rfl rfl fun d' hd' => ?_, hcomputes⟩
    exact Option.some.inj hd' ▸ hd
  simp only [all, List.mem_cons, List.not_mem_nil, or_false] at hpass
  rcases hpass with rfl | rfl | rfl | rfl
  · have hsound : Edit.removeUnreachable.Keeps Func.Sound :=
      fun _ hf => Edit.removeUnreachable_sound hf
    refine (unreachableBlocks_ends (hsound.ends hv)).imp ?_
    rintro _ w ⟨hlogs, -, hw, -⟩
    exact hlogged hlogs hw
  · have hcalls : ∀ (c : Call) f, f.Sound → (c.run f).Sound := fun c f hf => c.run_sound hf
    have hdominance : Edit.dominance.Keeps Func.Sound := fun _ hf => Edit.dominance_sound hf
    refine (promotion_ends (I := fun _ _ _ g => g.Sound) ((cells_keeps hdominance).ends hv)
      fun is done i rest _ changed g hg => ⟨?_, ?_⟩).imp ?_
    · exact (Edit.Keeps.query (P := (· = g)) _).ends rfl
    · exact (promoteCell_keeps hcalls _ i).ends hg
    · rintro _ w ⟨hlogs, -, hw⟩
      exact hlogged hlogs hw
  · refine (allocation_ends (hanalysis (Edit.allocateSlots_reads _))).imp ?_
    rintro _ w ⟨-, hbeside, a, ⟨hw, ha⟩, hview⟩
    refine ⟨hbeside, hw, fun a' ha' => .inr ?_, fun t ht => .inl ?_⟩
    · rw [hview] at ha'
      exact Option.some.inj ha' ▸ ha
    · rwa [hview] at ht
  · refine (structuring_ends (hanalysis Edit.controlTree_reads)).imp ?_
    rintro _ w ⟨-, hbeside, t, ⟨hw, ht⟩, hview⟩
    refine ⟨hbeside, hw, fun a ha => .inl ?_, fun t' ht' => .inr ?_⟩
    · rwa [hview] at ha
    · rw [hview] at ht'
      exact Option.some.inj ht' ▸ ht

theorem serves_fresh {pass : Pass σ} (hpass : pass ∈ (all : List (Pass σ))) :
    pass.Serves True c (FuncView.Fresh c.coalesce) fun _ => FuncView.Fresh c.coalesce := by
  obtain ⟨happlies, hprepare, hconclude⟩ := plain_of_mem_all hpass
  refine ⟨happlies, hprepare, hconclude, fun id v hc hv => ?_, fun _ _ hv _ => hv.verify⟩
  refine ((visit_stores hpass hv.sound).and (visit_unchanged hpass)).imp ?_
  rintro changed w ⟨⟨hbeside, hsound, hslots, htree⟩, hunchanged⟩
  refine ⟨hbeside, ?_⟩
  cases changed with
  | true => exact .of_sound hsound
  | false =>
    have hsame := hv.sameButCache (hunchanged rfl) hsound
    refine ⟨hsound, fun a ha => ?_, fun t ht => ?_⟩
    · exact (hslots a ha).elim (hsame.slots a) fun h => hc ▸ h
    · exact (htree t ht).elim (hsame.tree t) fun h => h

end Pass

structure RunState.Fresh (s : RunState σ) : Prop where
  slots : ∀ id f a, s.program.func id = .ok f → s.context.slots.get? id = some a →
    f.Computes (Edit.allocateSlots s.context.config.coalesce) a
  trees : ∀ id f t, s.program.func id = .ok f → s.context.trees.get? id = some t →
    f.Computes Edit.controlTree t

namespace Pipeline

variable {s : RunState σ}

theorem run_ends_fresh {p : Pipeline σ} (hpasses : ∀ pass ∈ p.passes, pass ∈ Pass.all)
    (hs : s.All (FuncView.Fresh s.context.config.coalesce)) :
    Ends True p.run s fun _ t =>
      s.Like t ∧ t.All (FuncView.Fresh s.context.config.coalesce) := by
  refine .get_bind (.bind (Run.limits_ends (fun _ hv => hv.setDominanceLimit _) hs) ?_)
  rintro _ t ⟨hlike, ht⟩
  refine (Run.sweeps_ends (c := s.context.config) (fun pass hpass =>
    Pass.serves_fresh (hpasses pass hpass)) p.limit 0 hlike.config ht).imp ?_
  exact fun _ u hu => ⟨hlike.trans hu.1, hu.2⟩

/-- After a run of any of the passes in any order, what is stored is what would be computed now, if
it was so before. A pass that reports no change leaves the function as it was. -/
theorem run_fresh (p : Pipeline σ) (hpasses : ∀ pass ∈ p.passes, pass ∈ Pass.all)
    (s t : RunState σ) (hbuilt : ∀ f ∈ s.program.functions, f.Built) (hs : s.Fresh) (k : Nat)
    (hrun : outcome p.run s = (.ok k, t)) :
    t.Fresh ∧ ∀ pass ∈ (Pass.all : List (Pass σ)), ∀ id v w,
      outcome (pass.visit id) v = (.ok false, w) → ∃ d, w.func = { v.func with dominance := d } := by
  have hviews : s.All (FuncView.Fresh s.context.config.coalesce) := by
    intro id v hv
    obtain ⟨f, hf, rfl⟩ := Option.map_eq_some_iff.1 hv
    have hok := Program.func_eq_ok.2 hf
    exact ⟨(hbuilt f (List.mem_of_getElem? hf)).sound, fun a => hs.slots id f a hok,
      fun tree => hs.trees id f tree hok⟩
  obtain ⟨hlike, hall⟩ := ends_true.1 (run_ends_fresh hpasses hviews) k t hrun
  have hview : ∀ id f, t.program.func id = .ok f →
      FuncView.Fresh s.context.config.coalesce (t.context.view id f) := by
    intro id f hf
    refine hall id _ ?_
    rw [RunState.view, Program.func_eq_ok.1 hf, Option.map_some]
  refine ⟨⟨fun id f a hf ha => ?_, fun id f tree hf ht => (hview id f hf).tree tree ht⟩, ?_⟩
  · rw [hlike.config]
    exact (hview id f hf).slots a ha
  · intro pass hpass id v w hvisit
    exact ends_true.1 (Pass.visit_unchanged hpass) false w hvisit rfl

/-- A cell that is read once, and a block that nothing reaches. -/
def readCell : Func :=
  [.addArgument, .addBlock, .appendValue ⟨0⟩ .newRef [⟨0⟩], .appendValue ⟨0⟩ .getRef [⟨1⟩],
    .append ⟨0⟩ .ret [⟨2⟩], .append ⟨1⟩ .ret []].foldl (fun f c => Call.run c f) (Func.new "f")

def readCellAlone : RunState Unit := ⟨{ functions := [readCell] }, {}, ()⟩

def storing : Pipeline Unit := { passes := [.allocation, .structuring] }

def shrinking : Pipeline Unit :=
  { passes := [.structuring, .promotion, .allocation, .unreachableBlocks] }

/-- Results are stored for a function, then its cell and its second block go, and new results are
stored. -/
theorem shrinking_fresh : ∃ s t : RunState Unit,
    outcome storing.run readCellAlone = (.ok 1, s) ∧ s.Fresh ∧
    s.context.slots.size = 1 ∧ s.context.trees.size = 1 ∧
    outcome shrinking.run s = (.ok 2, t) ∧ t.Fresh ∧
    t.context.slots.size = 1 ∧ t.context.trees.size = 1 ∧
    t.program.functions.map (fun f => (f.insts.count, f.blocks.count)) = [(1, 1)] := by
  have hp : (outcome storing.run readCellAlone).1 = .ok 1 := by decide +kernel
  have hq : (outcome shrinking.run (outcome storing.run readCellAlone).2).1 = .ok 2 := by
    decide +kernel
  have hfuncs : (outcome storing.run readCellAlone).2.program.functions =
      [Call.dominance.run readCell] := by decide +kernel
  have hsizes : (outcome storing.run readCellAlone).2.context.slots.size = 1 ∧
      (outcome storing.run readCellAlone).2.context.trees.size = 1 := by decide +kernel
  have hafter :
      (outcome shrinking.run (outcome storing.run readCellAlone).2).2.context.slots.size = 1 ∧
      (outcome shrinking.run (outcome storing.run readCellAlone).2).2.context.trees.size = 1 ∧
      (outcome shrinking.run (outcome storing.run readCellAlone).2).2.program.functions.map
        (fun f => (f.insts.count, f.blocks.count)) = [(1, 1)] := by decide +kernel
  have hf : readCell.Built := ⟨"f", _, rfl⟩
  rcases hrun : outcome storing.run readCellAlone with ⟨out, s⟩
  rw [hrun] at hp hq hfuncs hsizes hafter
  obtain rfl : out = _ := hp
  rcases hrun' : outcome shrinking.run s with ⟨out, t⟩
  rw [hrun'] at hq hafter
  obtain rfl : out = _ := hq
  have hfresh := (run_fresh storing (by simp [storing, Pass.all]) readCellAlone s
    (by simpa [readCellAlone] using hf) ⟨by simp [readCellAlone], by simp [readCellAlone]⟩ 1 hrun).1
  have hbuilt : ∀ g ∈ s.program.functions, g.Built := by
    intro g hg
    rw [show s.program.functions = _ from hfuncs, List.mem_singleton] at hg
    exact hg ▸ hf.run .dominance
  have hfresh' := (run_fresh shrinking (by simp [shrinking, Pass.all]) s t hbuilt hfresh 2 hrun').1
  exact ⟨s, t, rfl, hfresh, hsizes.1, hsizes.2, hrun', hfresh', hafter⟩

end Pipeline

end Midend
