namespace Midend

def bitMask (i : Nat) : UInt64 := 1 <<< (i % 64).toUInt64

def lowestBit (w : UInt64) : Nat := w.toBitVec.ctz.toNat

def clearLowest (w : UInt64) : UInt64 := w &&& (w - 1)

def bitCount (w : UInt64) : Nat := w.toBitVec.cpop.toNat

theorem toNat_sub_one {w : UInt64} (h : w ≠ 0) : (w - 1).toNat = w.toNat - 1 := by
  have hpos : 0 < w.toNat := Nat.pos_of_ne_zero fun h0 => h (UInt64.toNat_inj.1 h0)
  exact UInt64.toNat_sub_of_le _ _ (UInt64.le_iff_toNat_le.2 hpos)

theorem clearLowest_lt {w : UInt64} (h : w ≠ 0) : (clearLowest w).toNat < w.toNat := by
  have hpos : 0 < w.toNat := Nat.pos_of_ne_zero fun h0 => h (UInt64.toNat_inj.1 h0)
  calc (clearLowest w).toNat = w.toNat &&& (w - 1).toNat := UInt64.toNat_and ..
    _ ≤ (w - 1).toNat := Nat.and_le_right
    _ = w.toNat - 1 := toNat_sub_one h
    _ < w.toNat := Nat.sub_lt hpos (by decide)

/-- A set of indices, 64 to a word. It grows when an index past its last word is inserted and never
shrinks, so equality of sets compares lengths as well as members. -/
@[ext]
structure IndexSet where
  words : Array UInt64 := #[]
deriving DecidableEq, Repr, Inhabited

namespace IndexSet

def empty : IndexSet := ⟨#[]⟩

instance : EmptyCollection IndexSet := ⟨empty⟩

def withCapacity (capacity : Nat) : IndexSet := ⟨Array.replicate ((capacity + 63) / 64) 0⟩

/-- The word that holds index `i`, zero past the end. -/
def word (s : IndexSet) (i : Nat) : UInt64 := s.words.getD (i / 64) 0

def contains (s : IndexSet) (i : Nat) : Bool := s.word i &&& bitMask i != 0

def padded (s : IndexSet) (n : Nat) : Array UInt64 :=
  s.words ++ Array.replicate (n - s.words.size) 0

def insert (s : IndexSet) (i : Nat) : IndexSet :=
  ⟨(s.padded (i / 64 + 1)).modify (i / 64) (· ||| bitMask i)⟩

def erase (s : IndexSet) (i : Nat) : IndexSet :=
  ⟨s.words.modify (i / 64) (· &&& ~~~ bitMask i)⟩

def tryInsert (s : IndexSet) (i : Nat) : Bool × IndexSet := (!s.contains i, s.insert i)

def tryErase (s : IndexSet) (i : Nat) : Bool × IndexSet := (s.contains i, s.erase i)

/-- Empties the set and keeps its length. -/
def clear (s : IndexSet) : IndexSet := ⟨s.words.map fun _ => 0⟩

/-- The union, as long as the longer of the two. -/
def union (s t : IndexSet) : IndexSet :=
  let n := max s.words.size t.words.size
  ⟨Array.zipWith (· ||| ·) (s.padded n) (t.padded n)⟩

/-- Takes the union and tells whether a word of `s` changed. -/
def tryUnion (s t : IndexSet) : Bool × IndexSet :=
  let u := s.union t
  (u.words != s.padded u.words.size, u)

def intersects (s t : IndexSet) : Bool :=
  (Array.zipWith (· &&& ·) s.words t.words).any (· != 0)

def isEmpty (s : IndexSet) : Bool := s.words.all (· == 0)

/-- The set bits of a word: the lowest one, and then those that are left without it. -/
def bitsOf (w : UInt64) : List Nat :=
  if w = 0 then [] else lowestBit w :: bitsOf (clearLowest w)
termination_by w.toNat
decreasing_by exact clearLowest_lt ‹_›

def toList (s : IndexSet) : List Nat :=
  (List.range s.words.size).flatMap fun k => (bitsOf (s.words.getD k 0)).map (64 * k + ·)

def count (s : IndexSet) : Nat := s.words.toList.foldr (fun w n => bitCount w + n) 0

def ofList (is : List Nat) : IndexSet := is.foldl insert empty

def text (s : IndexSet) : String :=
  "\x7b" ++ ", ".intercalate (s.toList.map Nat.repr) ++ "\x7d"

end IndexSet

end Midend
