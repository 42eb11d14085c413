import Midend.ControlTree.Build
import Midend.Proofs.Edit.Outline
import Midend.Proofs.Promotion.Calls
import Midend.Slots

/-!
The cached dominance. Every edit keeps the outline of the function, or drops the cache, or takes away
blocks that the entry does not reach. So the cached tree and frontiers are those that would be
computed now, in every state that callers can come to: after failed calls, and after values in use
were destroyed. Only then can a removal of blocks stop half-way, and the cached snapshot of the graph
still show unreachable blocks that are gone.
-/

namespace Midend

namespace Edit

open Func

variable {f g : Func} {b : BlockId} {i : InstId} {gone : BlockId → Prop}

theorem discardInst_keeps {op : Opcode} (hi : f.code i = some (op, b)) (hb : gone b) :
    (discardInst i).Keeps fun g => f.Prunes gone g ∧ g.instIds b = none := by
  have hquiet : ∀ v, (forceDestroy v).Keeps fun g => f.Prunes gone g ∧ g.instIds b = none :=
    fun v g ⟨hg, hnone⟩ => ⟨hg.same ((forceDestroy_quiet v).same g),
      (((forceDestroy_quiet v).same g).instIds b).trans hnone⟩
  refine .bind .get fun _ => ?_
  split
  · exact .pure _
  · refine .bind (.modify fun g ⟨hg, hnone⟩ => ?_) fun _ => ?_
    · rw [releaseUses_eq]
      refine ⟨⟨hg.entry, hg.limit, hg.dominance, hg.size, hg.instIds, fun j => ?_⟩, hnone⟩
      simp only [code, Arena.get?_erase]
      split
      · rename_i heq
        refine .inr ⟨rfl, fun op' c hc => ?_⟩
        rw [heq, ← code, hi] at hc
        obtain ⟨-, rfl⟩ := Prod.mk.inj (Option.some.inj hc)
        exact ⟨hb, hnone⟩
      · exact hg.code j
    · split
      · exact .pure _
      · exact hquiet _

/-- A block that is to go can be discarded, even if that stops half-way. -/
theorem discardBlock_keeps (hf : f.Orderly) (hb : gone b) :
    (discardBlock b).Keeps (f.Prunes gone) := by
  intro g hg
  rw [discardBlock, apply_bind, apply_query]
  cases hdata : g.block b with
  | error err => exact hg
  | ok data =>
    have hlist : f.instIds b = some data.insts := by
      have hsome : g.instIds b = some data.insts := by
        rw [instIds, block_eq_ok.1 hdata, Option.map_some]
      rcases hg.instIds b with heq | ⟨-, hnone⟩
      · exact heq.symm.trans hsome
      · rw [hnone] at hsome
        cases hsome
    -- The slot is emptied first, so what follows only meets instructions without a block.
    have herased : instIds { g with blocks := g.blocks.erase b } b = none := by
      rw [instIds_eraseBlock, if_pos rfl]
    have hrest : (data.phis.forM discardPhi >>= fun _ => data.insts.forM discardInst :
        Edit Unit).Keeps fun g => f.Prunes gone g ∧ g.instIds b = none := by
      refine .bind (.forM fun p _ k hk => ?_) fun _ => .forM fun i hi => ?_
      · have hsame := (discardPhi_quiet p).same k
        exact ⟨hk.1.same hsame, (hsame.instIds b).trans hk.2⟩
      · obtain ⟨op, hop⟩ := hf.listed b _ i hlist hi
        exact discardInst_keeps hop hb
    have hmodify := apply_bind (modify fun f => { f with blocks := f.blocks.erase b })
      (fun _ => data.phis.forM discardPhi >>= fun _ => data.insts.forM discardInst) g
    exact hmodify ▸ (hrest _ ⟨hg.eraseBlock hb, herased⟩).1

theorem not_reachable_of_checkRemovable (h : checkRemovable b f = .ok ()) : ¬ f.Reachable b := by
  obtain ⟨hne, hpreds, -⟩ := checkRemovable_ok h
  intro hb
  refine FlowGraph.Reaches.induction_on (motive := (· ≠ b)) hb hne.symm ?_ rfl
  rintro c s - hc hs rfl
  obtain ⟨hlive, -, hs⟩ := mem_blockGraph_successorsOf.1 hs
  refine hc (hpreds c ?_)
  rw [predecessors, List.mem_filter, mem_blockIds, List.contains_iff_mem]
  exact ⟨hlive, hs⟩

theorem removeBlock_keeps (b : BlockId) : (removeBlock b).Keeps Kept := by
  intro f hf
  rw [removeBlock, apply_bind, apply_query]
  cases hc : checkRemovable b f with
  | error err => exact hf
  | ok _ =>
    have hdiscard : (discardBlock b).Keeps (f.Prunes (· = b)) := discardBlock_keeps hf.orderly rfl
    refine hf.prunes (Keeps.bind hdiscard (fun _ =>
      .bind (.forM fun s _ => (dropEdgeSources_quiet b s).keeps_prunes) fun _ =>
        .modify fun _ hg => hg.invalidate) f (.refl f)) ?_
    rintro c rfl
    exact not_reachable_of_checkRemovable hc

theorem mem_reachableBlocks_of_reachable (hf : f.Orderly) (hb : f.Reachable b) :
    b ∈ f.reachableBlocks := by
  refine (FlowGraph.mem_preorder (g := f.toFlowGraph) (fun n s hs => ?_) f.entry b).2 ?_
  · obtain ⟨op, hop, hs⟩ : ∃ op, f.terminatorOpcode? n = some op ∧ s ∈ op.targets := by
      change s ∈ f.successors n at hs
      rw [successors] at hs
      cases hop : f.terminatorOpcode? n with
      | none => simp [hop] at hs
      | some op => exact ⟨op, rfl, by simpa [hop] using hs⟩
    obtain ⟨-, is, i, c, -, -, hi⟩ := hf.terminatorOpcode?_eq_some.1 hop
    exact hf.target_lt i op c s hi hs
  · exact FlowGraph.Reaches.induction_on hb (.refl _) fun _ _ _ hc hs =>
      hc.step (mem_blockGraph_successorsOf.1 hs).2.2

/-- What the removal of unreachable blocks leads to, if each of its steps keeps it. -/
theorem removeUnreachable_snd {P : Func → Prop} (hf : P f)
    (hdrop : ∀ b s, b ∉ f.reachableBlocks → (dropEdgeSources b s).Keeps P)
    (hdiscard : ∀ b, b ∉ f.reachableBlocks → (discardBlock b).Keeps P)
    (hdone : ∀ g, P g → P g.invalidateDominance) : P (removeUnreachable.apply f).2 := by
  have hdead : ∀ b ∈ f.blockIds.filter fun b => !f.reachableBlocks.contains b,
      b ∉ f.reachableBlocks := fun b hb => by simpa using (List.mem_filter.1 hb).2
  rw [removeUnreachable, apply_bind, apply_get]
  dsimp only
  split
  · exact hf
  · refine Keeps.bind (.forM fun b hb => .bind .get fun k => .forM fun s _ => ?_) (fun _ =>
      .bind (.forM fun b hb => hdiscard b (hdead b hb)) fun _ => .bind (.modify hdone) fun _ =>
        .pure _) f hf
    split
    · exact hdrop b s (hdead b hb)
    · exact .pure _

theorem removeUnreachable_prunes (hf : f.Orderly) :
    f.Prunes (· ∉ f.reachableBlocks) (removeUnreachable.apply f).2 :=
  removeUnreachable_snd (.refl f) (fun b s _ => (dropEdgeSources_quiet b s).keeps_prunes)
    (fun _ hb => discardBlock_keeps hf hb) fun _ hg => hg.invalidate

theorem removeUnreachable_keeps : removeUnreachable.Keeps Kept := fun _ hf =>
  hf.prunes (removeUnreachable_prunes hf.orderly) fun _ hb hreach =>
    hb (mem_reachableBlocks_of_reachable hf.orderly hreach)

theorem verify_keeps : verify.Keeps Kept := by
  intro f hf
  rw [verify_apply]
  exact dominance_keeps f hf

end Edit

open Edit Func

theorem Call.run_kept (c : Call) (f : Func) (hf : f.Kept) : (c.run f).Kept := by
  have happend : ∀ b opcode operands, (Edit.appendValue b opcode operands).Keeps Kept := by
    intro b opcode operands g hg
    rw [appendValue_snd]
    exact append_keeps b opcode operands g hg
  suffices hkeeps : c.edit.Keeps Kept from hkeeps f hf
  cases c with
  | addArgument => exact .discard addArgument_quiet.keeps_kept
  | setVariadic on => exact .modify fun _ hg => hg.same (.of_fields rfl rfl rfl rfl rfl)
  | addUpvalue capture => exact .discard (addUpvalue_quiet capture).keeps_kept
  | constant k => exact .discard (constant_quiet k).keeps_kept
  | addBlock => exact .discard addBlock_keeps
  | setEntry b => exact setEntry_keeps b
  | retarget b old new => exact .discard (retarget_keeps b old new)
  | removeBlock b => exact removeBlock_keeps b
  | removeUnreachable => exact .discard removeUnreachable_keeps
  | append b opcode operands => exact .discard (append_keeps b opcode operands)
  | appendValue b opcode operands => exact .discard (happend b opcode operands)
  | vararg b => exact .discard (.bind .get fun f => happend b _ [])
  | insertBefore before opcode operands => exact .discard (insertBefore_keeps before opcode operands)
  | removeInst i => exact removeInst_keeps i
  | setOperand i index v => exact (setOperand_quiet i index v).keeps_kept
  | replaceAllUses old new => exact .discard (replaceAllUses_quiet old new).keeps_kept
  | addPhi b => exact .discard (addPhi_quiet b).keeps_kept
  | setPhiSource p pred v => exact (setPhiSource_quiet p pred v).keeps_kept
  | removePhiSource p pred => exact .discard (removePhiSource_quiet p pred).keeps_kept
  | removePhi p => exact (removePhi_quiet p).keeps_kept
  | dominance => exact .discard dominance_keeps
  | invalidateDominance => exact .modify fun _ hg => hg.invalidate
  | setDominanceLimit limit => exact setDominanceLimit_keeps limit
  | verify => exact verify_keeps

/-- Anything that callers can do with a function: the editing calls, the destruction of a value that
may be in use, promotion, and the analyses that ask for the dominance. -/
inductive Action where
  | call (c : Call)
  | forceDestroy (v : ValueId)
  | cells
  | promoteCell (captured : Bool) (i : InstId)
  | promoteAll (captured : Bool)
  | allocateSlots (coalesce : Bool)
  | controlTree
deriving DecidableEq, Repr

namespace Action

def edit : Action → Edit Unit
  | call c => c.edit
  | forceDestroy v => Edit.forceDestroy v
  | cells => discard Edit.cells
  | promoteCell captured i => discard (Edit.promoteCell captured i)
  | promoteAll captured => discard (Edit.promoteAll captured)
  | allocateSlots coalesce => discard (Edit.allocateSlots coalesce)
  | controlTree => discard Edit.controlTree

def run (a : Action) (f : Func) : Func := (a.edit.apply f).2

def build (name : String) (actions : List Action) : Func :=
  actions.foldl (fun f a => a.run f) (Func.new name)

def isForced : Action → Bool
  | forceDestroy _ => true
  | _ => false

/-- What the calls keep, every action keeps that does not force a value away. -/
theorem edit_keeps {P : Func → Prop} (hcalls : ∀ c f, P f → P (Call.run c f)) {a : Action}
    (ha : a.isForced = false) : a.edit.Keeps P := by
  have hdominance : Edit.dominance.Keeps P := keeps_of_discard hcalls .dominance rfl
  cases a with
  | call c => exact keeps_of_call hcalls c
  | forceDestroy v => cases ha
  | cells => exact .discard (cells_keeps hdominance)
  | promoteCell captured i => exact .discard (promoteCell_keeps hcalls captured i)
  | promoteAll captured => exact .discard (promoteAll_keeps hcalls captured)
  | allocateSlots coalesce =>
    have hliveness : liveness.Keeps P := .bind hdominance fun _ => .query _
    exact .discard (.bind (.bind hliveness fun _ => .query _) fun _ => .pure _)
  | controlTree => exact .discard (.bind hdominance fun _ => .query _)

theorem run_kept (a : Action) {f : Func} (hf : f.Kept) : (a.run f).Kept := by
  cases ha : a.isForced with
  | true =>
    cases a with
    | forceDestroy v => exact (forceDestroy_quiet v).keeps_kept f hf
    | _ => cases ha
  | false => exact edit_keeps Call.run_kept ha f hf

theorem build_kept (name : String) (actions : List Action) : (build name actions).Kept := by
  have hrun : ∀ f : Func, f.Kept → (actions.foldl (fun f a => a.run f) f).Kept := by
    induction actions with
    | nil => exact fun f hf => hf
    | cons a actions ih => exact fun f hf => ih _ (a.run_kept hf)
  exact hrun _ (new_sound name).kept

theorem build_sound (name : String) {actions : List Action}
    (hforced : ∀ a ∈ actions, a.isForced = false) : (build name actions).Sound := by
  have hrun : ∀ f : Func, f.Sound → (actions.foldl (fun f a => a.run f) f).Sound := by
    induction actions with
    | nil => exact fun f hf => hf
    | cons a actions ih =>
      obtain ⟨ha, hforced⟩ := List.forall_mem_cons.1 hforced
      have hkeeps : a.edit.Keeps Sound := edit_keeps (fun c g hg => c.run_sound hg) ha
      exact fun f hf => ih hforced _ (hkeeps f hf)
  exact hrun _ (new_sound name)

end Action

/-- In every state that callers can come to, a cached dominance has the tree and the frontiers that
would be computed for the function and the limit of the moment. Unless a value was forced away, its
snapshot of the block graph is the current one as well. -/
theorem dominance_current (name : String) (actions : List Action) (d : Dominance)
    (hd : (Action.build name actions).dominance = some d) :
    (∃ d', (Action.build name actions).computeDominance
        (Action.build name actions).dominanceLimit = .ok d' ∧
      d'.tree = d.tree ∧ d'.frontiers = d.frontiers) ∧
    ((∀ a ∈ actions, a.isForced = false) → d.graph = (Action.build name actions).blockGraph) := by
  refine ⟨(Action.build_kept name actions).current d hd, fun hforced => ?_⟩
  exact (computeDominance_isOf ((Action.build_sound name hforced).coherent d hd)).graph

/-- A block that the entry does not reach branches to it. -/
def strayBlock : List Action :=
  [.call .addBlock, .call (.append ⟨0⟩ .ret []), .call (.appendValue ⟨1⟩ .makeTuple []),
    .call (.append ⟨1⟩ (.branch ⟨0⟩) [])]

/-- The removal of the stray block stops at a value that was forced away. -/
def stoppedRemoval : List Action :=
  strayBlock ++ [.forceDestroy ⟨0⟩, .call .dominance, .call .removeUnreachable]

/-- The cached snapshot still has the edge of the stray block, and the tree and the frontiers are
those of the function without it. -/
theorem stoppedRemoval_current :
    (∃ d, (Action.build "f" stoppedRemoval).dominance = some d ∧
      d.graph ≠ (Action.build "f" stoppedRemoval).blockGraph ∧
      ∃ d', (Action.build "f" stoppedRemoval).computeDominance
          (Action.build "f" stoppedRemoval).dominanceLimit = .ok d' ∧
        d'.tree = d.tree ∧ d'.frontiers = d.frontiers) ∧
    ∃ d, (Action.build "f" (strayBlock ++ [.call .dominance])).dominance = some d ∧
      d.graph = (Action.build "f" (strayBlock ++ [.call .dominance])).blockGraph := by
  constructor
  · have hother : ((Action.build "f" stoppedRemoval).dominance.map fun d =>
        decide (d.graph = (Action.build "f" stoppedRemoval).blockGraph)) = some false := by
      decide +kernel
    obtain ⟨d, hd, hne⟩ := Option.map_eq_some_iff.1 hother
    exact ⟨d, hd, of_decide_eq_false hne, (dominance_current "f" _ d hd).1⟩
  · have hsome : (Action.build "f" (strayBlock ++ [.call .dominance])).dominance.isSome = true := by
      decide +kernel
    obtain ⟨d, hd⟩ := Option.isSome_iff_exists.1 hsome
    exact ⟨d, hd, (dominance_current "f" _ d hd).2 (by decide)⟩

end Midend
