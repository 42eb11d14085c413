import Midend.ControlTree.Build
import Midend.Proofs.Edit.Keeps
import Midend.Proofs.Func.Accepted
import Midend.Slots

namespace Midend

variable {α : Type} {f g : Func} {d d' : Dominance} {limit limit' : Nat}

namespace Func

theorem computeDominance_of_le (h : f.computeDominance limit = .ok d) (hle : limit ≤ limit') :
    f.computeDominance limit' = .ok d := by
  obtain ⟨tree, htree, hd⟩ := bind_eq_ok.1 h
  exact bind_eq_ok.2 ⟨tree, FlowGraph.dominators_of_le htree hle, hd⟩

theorem computeDominance_unique (h : f.computeDominance limit = .ok d)
    (h' : f.computeDominance limit' = .ok d') : d = d' := by
  rcases Nat.le_total limit limit' with hle | hle
  · exact Except.ok.inj ((computeDominance_of_le h hle).symm.trans h')
  · exact Except.ok.inj (h.symm.trans (computeDominance_of_le h' hle))

/-- The edit has this result on the function as it stands, under a dominance limit that suffices and
without anything cached. -/
def Computes (f : Func) (e : Edit α) (a : α) : Prop :=
  ∃ limit, (e.apply { f with dominanceLimit := limit, dominance := none }).1 = .ok a

def SameButCache (f g : Func) : Prop := ∃ d, g = { f with dominance := d }

theorem SameButCache.refl (f : Func) : f.SameButCache f := ⟨f.dominance, rfl⟩

theorem SameButCache.trans {h : Func} (hfg : f.SameButCache g) (hgh : g.SameButCache h) :
    f.SameButCache h := by
  obtain ⟨x, rfl⟩ := hfg
  exact hgh

theorem finishGroup_apart (x : Option Dominance) (n : Nat) (entry : BlockId) (fuel : Nat)
    (m : Builder) :
    finishGroup { f with dominance := x, dominanceLimit := n } d entry fuel m =
      f.finishGroup d entry fuel m := by
  induction fuel generalizing m with
  | zero => rfl
  | succ fuel ih =>
    unfold finishGroup
    simp only [ih]
    rfl

theorem buildGroups_apart (x : Option Dominance) (n fuel : Nat) (queue : List BlockId)
    (queued : OrderedSet BlockId) (placed : IndexSet) :
    buildGroups { f with dominance := x, dominanceLimit := n } d fuel queue queued placed =
      f.buildGroups d fuel queue queued placed := by
  induction fuel generalizing queue queued placed with
  | zero => cases queue <;> rfl
  | succ fuel ih =>
    cases queue with
    | nil => rfl
    | cons b queue =>
      unfold buildGroups buildGroup
      simp only [ih, finishGroup_apart]

end Func

namespace Edit

open Func

/-- An edit that asks for the dominance and then reads the function by way of `q`, which looks at
neither the cached dominance nor its limit. -/
structure Reads (e : Edit α) (q : Func → Dominance → Except Error α) : Prop where
  apply : ∀ f, e.apply f = (dominance >>= fun d => query (q · d) : Edit α).apply f
  apart : ∀ f x limit d, q { f with dominance := x, dominanceLimit := limit } d = q f d

theorem controlTree_reads : controlTree.Reads ControlTree.ofFunc := by
  refine ⟨fun _ => rfl, fun f x limit d => ?_⟩
  unfold ControlTree.ofFunc
  rw [buildGroups_apart]

theorem allocateSlots_reads (coalesce : Bool) : (allocateSlots coalesce).Reads fun f d => do
    let l ← Liveness.ofFunc f d
    return (← Interference.ofLiveness f l).allocate coalesce := by
  refine ⟨fun f => ?_, fun _ _ _ _ => rfl⟩
  simp only [allocateSlots, interference, liveness, apply_bind, apply_query]
  rcases dominance.apply f with ⟨_ | d, g⟩
  · rfl
  · simp only
    cases Liveness.ofFunc g d with
    | error err => rfl
    | ok l =>
      simp only
      cases hi : Interference.ofLiveness g l with
      | error err => simp only [bind, Except.bind, hi]
      | ok i =>
        simp only [bind, Except.bind, hi]
        rfl

namespace Reads

variable {e : Edit α} {q : Func → Dominance → Except Error α} {a : α}

theorem apply_of_dominance (h : e.Reads q) (hf : f.Coherent)
    (hd : f.computeDominance f.dominanceLimit = .ok d) :
    e.apply f = (q f d, { f with dominance := some d }) := by
  rw [h.apply, apply_bind, dominance_apply hf hd]
  exact congrArg (·, _) (h.apart f (some d) f.dominanceLimit d)

theorem of_ok (h : e.Reads q) (hf : f.Coherent) (hrun : e.apply f = (.ok a, g)) :
    ∃ d, f.computeDominance f.dominanceLimit = .ok d ∧ q f d = .ok a ∧
      g = { f with dominance := some d } := by
  rcases dominance_yields hf with ⟨err, herr⟩ | ⟨d, -, -, hd, -⟩
  · rw [h.apply, apply_bind, herr] at hrun
    cases hrun
  · rw [h.apply_of_dominance hf hd] at hrun
    obtain ⟨hq, rfl⟩ := Prod.mk.inj hrun
    exact ⟨d, hd, hq, rfl⟩

theorem computes_iff (h : e.Reads q) :
    f.Computes e a ↔ ∃ limit d, f.computeDominance limit = .ok d ∧ q f d = .ok a := by
  constructor
  · rintro ⟨limit, hrun⟩
    obtain ⟨d, hd, hq, -⟩ := h.of_ok (.of_none rfl) (Prod.ext hrun rfl)
    exact ⟨limit, d, hd, (h.apart f none limit d).symm.trans hq⟩
  · rintro ⟨limit, d, hd, hq⟩
    refine ⟨limit, ?_⟩
    rw [h.apply_of_dominance (d := d) (.of_none rfl) hd]
    exact (h.apart f none limit d).trans hq

/-- What an analysis hands out is what would be computed afresh. -/
theorem computes_of_ok (h : e.Reads q) (hf : f.Coherent) (hrun : e.apply f = (.ok a, g)) :
    f.Computes e a := by
  obtain ⟨d, hd, hq, -⟩ := h.of_ok hf hrun
  exact h.computes_iff.2 ⟨_, d, hd, hq⟩

end Reads

theorem dominance_keeps_sameButCache : dominance.Keeps f.SameButCache := by
  rintro _ ⟨x, rfl⟩
  simp only [dominance, apply_bind, apply_get]
  cases x with
  | some d => exact ⟨some d, rfl⟩
  | none =>
    simp only [apply_bind, apply_query]
    cases Func.computeDominance { f with dominance := none } f.dominanceLimit with
    | error err => exact ⟨none, rfl⟩
    | ok d => exact ⟨some d, rfl⟩

theorem verify_keeps_sameButCache : verify.Keeps f.SameButCache := by
  intro g hg
  rw [verify_apply]
  exact dominance_keeps_sameButCache g hg

end Edit

end Midend
