import Midend.Proofs.Execution

namespace Midend

/-- What a value is in a symbolic execution. -/
inductive Term where
  | undefined
  | atom (v : ValueId)
  /-- The cell made by the `n`-th execution of a creation. -/
  | cell (i : InstId) (n : Nat)
  | node (i : InstId) (n : Nat) (operands : List Term)

structure Memory where
  count : InstId → Nat
  content : InstId → Nat → Term

namespace Memory

def empty : Memory := ⟨fun _ => 0, fun _ _ => .undefined⟩

def tick (s : Memory) (i : InstId) : Memory :=
  { s with count := Function.update s.count i (s.count i + 1) }

def store (s : Memory) (i : InstId) (n : Nat) (a : Term) : Memory :=
  { s with content := fun j k => if j = i ∧ k = n then a else s.content j k }

/-- What a cell holds; a term that is no cell stands for itself. -/
def fetch (s : Memory) : Term → Term
  | .cell i n => s.content i n
  | a => a

@[simp]
theorem content_tick (s : Memory) (i : InstId) : (s.tick i).content = s.content := rfl

@[simp]
theorem count_store (s : Memory) (i : InstId) (n : Nat) (a : Term) :
    (s.store i n a).count = s.count := rfl

end Memory

/-- The machine of symbolic execution; `copied` is the cell that closures take a copy of. -/
def symbolic (copied : Option ValueId) : Machine Term Memory where
  view op v s a :=
    match op with
    | .closure _ => if copied = some v then s.fetch a else a
    | _ => a
  step i op args s :=
    match op, args with
    | .newRef, _ => (.cell i (s.count i), (s.tick i).store i (s.count i) (args.head?.getD .undefined))
    | .getRef, .cell j n :: _ => (s.content j n, s.tick i)
    | .setRef, .cell j n :: a :: _ => (.node i (s.count i) args, (s.tick i).store j n a)
    | _, _ => (.node i (s.count i) args, s.tick i)

theorem symbolic_view {copied : Option ValueId} {op : Opcode} (h : ∀ proto, op ≠ .closure proto)
    (v : ValueId) (s : Memory) (a : Term) : (symbolic copied).view op v s a = a := by
  cases op with
  | closure proto => exact absurd rfl (h proto)
  | _ => rfl

theorem symbolic_step_cases (copied : Option ValueId) (i : InstId) (op : Opcode) (args : List Term)
    (s : Memory) :
    (op = .newRef ∧ (symbolic copied).step i op args s =
      (.cell i (s.count i), (s.tick i).store i (s.count i) (args.head?.getD .undefined))) ∨
    (op = .getRef ∧ ∃ j n rest, args = .cell j n :: rest ∧
      (symbolic copied).step i op args s = (s.content j n, s.tick i)) ∨
    (op = .setRef ∧ ∃ j n a rest, args = .cell j n :: a :: rest ∧
      (symbolic copied).step i op args s = (.node i (s.count i) args, (s.tick i).store j n a)) ∨
    (op ≠ .newRef ∧ (symbolic copied).step i op args s = (.node i (s.count i) args, s.tick i)) := by
  unfold symbolic
  dsimp only
  split
  · exact .inl ⟨rfl, rfl⟩
  · exact .inr (.inl ⟨rfl, _, _, _, rfl, rfl⟩)
  · exact .inr (.inr (.inl ⟨rfl, _, _, _, _, rfl, rfl⟩))
  · rename_i hnew _ _
    exact .inr (.inr (.inr ⟨hnew, rfl⟩))

theorem symbolic_step_count {copied : Option ValueId} {i j : InstId} {op : Opcode}
    {args : List Term} {s : Memory} (hne : j ≠ i) :
    ((symbolic copied).step i op args s).2.count j = s.count j := by
  have htick : (s.tick i).count j = s.count j := Function.update_of_ne hne _ _
  rcases symbolic_step_cases copied i op args s with
    ⟨-, heq⟩ | ⟨-, _, _, _, -, heq⟩ | ⟨-, _, _, _, _, -, heq⟩ | ⟨-, heq⟩
  all_goals
    rw [heq]
    exact htick

def Execution.received {L V S : Type} (x : Execution L V S) : List (InstId × List V) :=
  x.reads.filterMap fun r =>
    match r with
    | .inst i args => some (i, args)
    | .phi _ _ => none

section Received

variable {V S : Type} {x : Execution ValueId V S}

@[simp]
theorem Execution.received_runInst {m : Machine V S} {e : InstId × Inst} :
    (x.runInst m id e).received = (e.1, x.operands m id e.2) :: x.received := by
  rw [received, reads_runInst]
  rfl

@[simp]
theorem Execution.received_runPhis {pred : BlockId} {phis : List (PhiId × Phi)} :
    (x.runPhis id pred phis).received = x.received := by
  unfold received runPhis
  rw [reads_writeAll, List.filterMap_append, List.append_left_eq_self, List.filterMap_eq_nil_iff]
  intro r hr
  obtain ⟨t, -, rfl⟩ := List.mem_map.1 (List.mem_reverse.1 hr)
  rfl

end Received

def Func.trace (f : Func) (copied : Option ValueId) (path : List BlockId) :
    Execution ValueId Term Memory :=
  Execution.run f (symbolic copied) id .atom ⟨f.initial .undefined .atom, .empty, []⟩ path

end Midend
