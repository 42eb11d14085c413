import Midend.Proofs.ControlTree.Total
import Midend.Proofs.Edit.Analyses
import Midend.Proofs.Edit.Unreachable
import Midend.Proofs.Slots.Execution

namespace Midend

variable {f g : Func} {limit : Nat}

/-- The verifier accepts a function under every limit that covers its blocks. -/
theorem Edit.verify_apart (hf : f.Sound) (hv : (verify.apply f).1 = .ok ()) {x : Option Dominance}
    (hlimit : f.blocks.size ≤ limit)
    (hg : Func.Coherent { f with dominance := x, dominanceLimit := limit }) :
    (verify.apply { f with dominance := x, dominanceLimit := limit }).1 = .ok () := by
  obtain ⟨d, hrun, -, hclean⟩ := verify_violations hf hv
  obtain ⟨d', hd'⟩ := hf.linked.computeDominance_ok hlimit
  obtain ⟨hd, -⟩ := (dominance_yields hf.coherent).of_ok hrun
  obtain rfl := Func.computeDominance_unique hd hd'
  rw [verify_apply, dominance_apply hg hd']
  have hsame : Func.violations { f with dominance := some d, dominanceLimit := limit } (some d) =
      f.violations (some d) := rfl
  simp [Except.toOption, hsame, hclean]

namespace Func

/-- The function can go through the passes under this dominance limit. -/
structure Fit (limit : Nat) (f : Func) : Prop where
  built : f.Built
  verifies : (Edit.verify.apply f).1 = .ok ()
  limit_eq : f.dominanceLimit = limit
  size : f.blocks.size ≤ limit

/-- The entry reaches every block. -/
def Swept (f : Func) : Prop := ∀ b, f.hasBlock b = true → f.Reachable b

theorem Swept.sameButCache (h : f.Swept) (hg : f.SameButCache g) : g.Swept := by
  obtain ⟨x, rfl⟩ := hg
  exact h

namespace Fit

theorem sound (h : f.Fit limit) : f.Sound := h.built.sound

theorem dominance (h : f.Fit limit) : ∃ d, f.computeDominance f.dominanceLimit = .ok d :=
  h.sound.linked.computeDominance_ok (h.limit_eq.symm ▸ h.size)

theorem sameButCache (h : f.Fit limit) (hfg : f.SameButCache g) (hg : g.Built) : g.Fit limit := by
  obtain ⟨x, rfl⟩ := hfg
  refine ⟨hg, ?_, h.limit_eq, h.size⟩
  exact Edit.verify_apart h.sound h.verifies (h.limit_eq.symm ▸ h.size) hg.sound.coherent

theorem of_built (hf : f.Built) (hv : (Edit.verify.apply f).1 = .ok ())
    (hsize : f.blocks.size ≤ limit) : Fit limit ((Edit.setDominanceLimit limit).apply f).2 := by
  have hbuilt := hf.run (.setDominanceLimit limit)
  rw [Call.run, Call.edit] at hbuilt
  rw [Edit.setDominanceLimit, Edit.apply_modify] at hbuilt ⊢
  by_cases hlimit : f.dominanceLimit = limit
  · rw [if_pos hlimit]
    exact ⟨hf, hv, hlimit, hsize⟩
  · rw [if_neg hlimit] at hbuilt ⊢
    exact ⟨hbuilt, Edit.verify_apart hf.sound hv hsize (.of_none rfl), rfl, hsize⟩

theorem verify (h : f.Fit limit) :
    Edit.verify.Ensures f fun _ g => g.Fit limit ∧ f.SameButCache g := by
  have hsame := Edit.verify_keeps_sameButCache f (.refl f)
  exact ⟨(), _, Prod.ext h.verifies rfl, h.sameButCache hsame (h.built.run .verify), hsame⟩

theorem removeUnreachable (h : f.Fit limit) :
    Edit.removeUnreachable.Ensures f fun _ g => g.Fit limit ∧ g.Swept := by
  obtain ⟨dead, g, hrun, hv, hsize, hlimit, hswept⟩ :=
    Edit.removeUnreachable_verify h.sound h.verifies
  have hbuilt := h.built.run .removeUnreachable
  rw [Call.run, Call.edit, Edit.apply_discard, hrun] at hbuilt
  exact ⟨dead, g, hrun, ⟨hbuilt, hv, hlimit.trans h.limit_eq, hsize ▸ h.size⟩, hswept⟩

theorem analysis {α : Type} {e : Edit α} {q : Func → Dominance → Except Error α}
    (h : f.Fit limit) (he : e.Reads q) (hok : ∃ a, (e.apply f).1 = .ok a) :
    e.Ensures f fun _ g => g.Fit limit ∧ f.SameButCache g := by
  obtain ⟨a, ha⟩ := hok
  obtain ⟨d, hd, -, hg⟩ := he.of_ok h.sound.coherent (Prod.ext ha rfl)
  have hbuilt := h.built.run .dominance
  rw [Call.run, Call.edit, Edit.apply_discard, Edit.dominance_apply h.sound.coherent hd] at hbuilt
  exact ⟨a, _, Prod.ext ha hg, h.sameButCache ⟨some d, rfl⟩ hbuilt, some d, rfl⟩

theorem allocateSlots (h : f.Fit limit) (coalesce : Bool) :
    (Edit.allocateSlots coalesce).Ensures f fun _ g => g.Fit limit ∧ f.SameButCache g := by
  obtain ⟨d, l, G, -, hok⟩ := Edit.allocateSlots_ok h.sound h.verifies coalesce
  exact h.analysis (Edit.allocateSlots_reads coalesce) ⟨_, hok⟩

theorem controlTree (h : f.Fit limit) :
    Edit.controlTree.Ensures f fun _ g => g.Fit limit ∧ f.SameButCache g :=
  h.analysis Edit.controlTree_reads (Edit.controlTree_ok h.built h.verifies)

end Fit

end Func

end Midend
