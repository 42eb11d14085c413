import Midend.Opcode
import Midend.OrderedMap

namespace Midend

/-- How an enclosing variable reaches a function. A capture by address is written `open`, one by
copy `closed`. -/
inductive Capture where
  | byAddress
  | byCopy
deriving DecidableEq, Repr

namespace Capture

def text : Capture → String
  | byAddress => "open"
  | byCopy => "closed"

def spelled : Capture → String
  | byAddress => "Open"
  | byCopy => "Closed"

def kind : Capture → ValueKind
  | byAddress => .reference
  | byCopy => .value

end Capture

inductive Definition where
  | inst (id : InstId)
  | argument (index : Nat)
  | phi (id : PhiId)
  | const (id : ConstId)
  | upvalue (capture : Capture) (index : Nat)
deriving DecidableEq, Repr

namespace Definition

/-- Whether a value so defined can live in a slot. -/
def isSlotResident : Definition → Bool
  | inst _ | argument _ | phi _ => true
  | const _ | upvalue _ _ => false

def spelled : Definition → String
  | inst id => "Instruction(" ++ id.spelled ++ ")"
  | argument index => "Argument(" ++ index.repr ++ ")"
  | phi id => "Phi(" ++ id.spelled ++ ")"
  | const id => "Constant(" ++ id.spelled ++ ")"
  | upvalue capture index => "Upvalue(" ++ capture.spelled ++ ", " ++ index.repr ++ ")"

end Definition

inductive User where
  | inst (id : InstId)
  | phi (id : PhiId)
deriving DecidableEq, Repr

namespace User

def text : User → String
  | inst id => id.text
  | phi id => id.text

/-- The rank of a user: its class, then its index. -/
def rank : User → Nat × Nat
  | inst id => (0, id.index)
  | phi id => (1, id.index)

theorem rank_injective {a b : User} (h : a.rank = b.rank) : a = b := by
  rcases a with ⟨⟨i⟩⟩ | ⟨⟨i⟩⟩ <;> rcases b with ⟨⟨j⟩⟩ | ⟨⟨j⟩⟩ <;> simp_all [rank]

instance : Ord User :=
  ⟨compareLex (compareOn fun u => u.rank.1) (compareOn fun u => u.rank.2)⟩

instance : Std.TransOrd User :=
  inferInstanceAs
    (Std.TransCmp (compareLex (compareOn fun u : User => u.rank.1) (compareOn fun u => u.rank.2)))

instance : Std.LawfulEqOrd User where
  eq_of_compare {a b} h := by
    have h' : (compare a.rank.1 b.rank.1).then (compare a.rank.2 b.rank.2) = .eq := h
    obtain ⟨h₁, h₂⟩ := Ordering.then_eq_eq.1 h'
    exact rank_injective (Prod.ext (Std.LawfulEqOrd.eq_of_compare h₁)
      (Std.LawfulEqOrd.eq_of_compare h₂))

end User

/-- A value: its kind, its definition, and the number of times each user consumes it. -/
@[ext]
structure Value where
  kind : ValueKind
  definition : Definition
  uses : OrderedMap User Nat := ∅
deriving DecidableEq, Repr

namespace Value

def users (v : Value) : List (User × Nat) := v.uses.toList

/-- The number of distinct consumers. -/
def userCount (v : Value) : Nat := v.uses.size

/-- The number of uses, repeated ones counted. -/
def useCount (v : Value) : Nat := v.uses.values.foldr (· + ·) 0

def isUnused (v : Value) : Bool := v.uses.isEmpty

def usesBy (v : Value) (user : User) : Nat := (v.uses.get? user).getD 0

/-- Counts `n` more uses by `user`; a count of zero is not recorded. -/
def addUses (v : Value) (user : User) (n : Nat) : Value :=
  if n = 0 then v else { v with uses := v.uses.insert user (v.usesBy user + n) }

/-- Counts one use by `user` less; the last one removes the entry. -/
def dropUse (v : Value) (user : User) : Value :=
  if 1 < v.usesBy user then { v with uses := v.uses.insert user (v.usesBy user - 1) }
  else { v with uses := v.uses.erase user }

def dropUses (v : Value) (user : User) : Value := { v with uses := v.uses.erase user }

@[simp]
theorem usesBy_addUses (v : Value) (user other : User) (n : Nat) :
    (v.addUses user n).usesBy other = v.usesBy other + if other = user then n else 0 := by
  unfold addUses
  split
  · simp [*]
  · by_cases h : other = user <;> simp [usesBy, h]

@[simp]
theorem usesBy_dropUse (v : Value) (user other : User) :
    (v.dropUse user).usesBy other = v.usesBy other - if other = user then 1 else 0 := by
  unfold dropUse
  split
  · by_cases h : other = user <;> simp [usesBy, h]
  · by_cases h : other = user
    · subst h
      have le : v.usesBy other ≤ 1 := Nat.le_of_not_lt ‹_›
      simp only [usesBy, OrderedMap.get?_erase] at le ⊢
      simp
      omega
    · simp [usesBy, h]

@[simp]
theorem usesBy_dropUses (v : Value) (user other : User) :
    (v.dropUses user).usesBy other = if other = user then 0 else v.usesBy other := by
  by_cases h : other = user <;> simp [dropUses, usesBy, h]

end Value

end Midend
