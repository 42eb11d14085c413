import Midend.Program

namespace Midend.Program

variable {p : Program} {id : FuncId} {f : Func}

theorem func_eq_ok : p.func id = .ok f ↔ p.functions[id.index]? = some f := by
  unfold func
  cases p.functions[id.index]? <;> simp

theorem lt_size_iff : id.index < p.size ↔ ∃ f, p.func id = .ok f := by
  simp only [func_eq_ok, List.getElem?_eq_some_iff, size]
  exact ⟨fun h => ⟨_, h, rfl⟩, fun ⟨_, h, _⟩ => h⟩

theorem func_setFunc (hf : p.func id = .ok f) (g : Func) (j : FuncId) :
    (p.setFunc id g).func j = if j = id then .ok g else p.func j := by
  obtain ⟨hlt, -⟩ := List.getElem?_eq_some_iff.1 (func_eq_ok.1 hf)
  split
  · rename_i heq
    rw [heq, func_eq_ok, setFunc, List.getElem?_set_self hlt]
  · rename_i hne
    have hindex : id.index ≠ j.index := fun heq => hne (Handle.ext heq.symm)
    rw [func, func, setFunc, List.getElem?_set_ne hindex]

theorem edit_of_func {α : Type} (hf : p.func id = .ok f) (e : Edit α) :
    p.edit id e = ((e.apply f).1, p.setFunc id (e.apply f).2) := by
  rw [edit, hf]

theorem constants_edit {α : Type} (p : Program) (id : FuncId) (e : Edit α) :
    (p.edit id e).2.constants = p.constants := by
  unfold edit
  split <;> rfl

end Midend.Program
