/-!
The shortest decimal for a binary floating-point number. A 64-bit pattern is decoded into
`mantissa * 2 ^ exponent`; among the decimals that round to it, one with the fewest digits is taken,
of those the nearest, and of two equally near ones the larger. All arithmetic is exact.
-/

namespace Midend

/-- A magnitude `mantissa * 2 ^ exponent`, with the mark of a mantissa at the lower end of its
binade, where the next smaller number is only half as far away. -/
structure Binary where
  mantissa : Nat
  exponent : Int
  atBinadeStart : Bool
deriving DecidableEq, Repr

inductive Binary64 where
  | nan
  | infinite (negative : Bool)
  | finite (negative : Bool) (magnitude : Binary)
deriving DecidableEq, Repr

/-- Splits a pattern into sign, 11 exponent bits and 52 fraction bits. -/
def Binary64.ofBits (bits : UInt64) : Binary64 :=
  let negative := bits >>> 63 != 0
  let biased := (bits >>> 52 &&& 0x7ff).toNat
  let fraction := (bits &&& 0xfffffffffffff).toNat
  if biased = 0x7ff then
    if fraction = 0 then infinite negative else nan
  else if biased = 0 then finite negative ⟨fraction, -1074, false⟩
  else finite negative ⟨fraction + 0x10000000000000, biased - 1075, fraction = 0 && 1 < biased⟩

/-- The number `digits * 10 ^ exponent`. -/
structure Decimal where
  digits : Nat
  exponent : Int
deriving DecidableEq, Repr

namespace Decimal

def width (n : Nat) : Nat := (Nat.toDigits 10 n).length

/-- A quarter of the unit in the last place, as a fraction: numerator and denominator. -/
def quarterUnit (x : Binary) : Nat × Nat :=
  (Nat.pow 2 (x.exponent - 2).toNat, Nat.pow 2 (2 - x.exponent).toNat)

/-- The position of the leading decimal digit of `num / den`: the `e` for which
`10 ^ e ≤ num / den < 10 ^ (e + 1)`. -/
def leading (num den : Nat) : Int :=
  if den ≤ num then (width (num / den) : Int) - 1 else -(width ((den - 1) / num) : Int)

def comparePoint (n : Nat) (e : Int) (num den : Nat) : Ordering :=
  compare (n * Nat.pow 10 e.toNat * den) (num * Nat.pow 10 (-e).toNat)

/-- Whether `n * 10 ^ e` rounds to `x`: it lies between the midpoints to the two neighbours, which
count themselves when the mantissa is even. -/
def roundsTo (x : Binary) (n : Nat) (e : Int) : Bool :=
  let (unit, den) := quarterUnit x
  let low := (4 * x.mantissa - if x.atBinadeStart then 1 else 2) * unit
  let high := (4 * x.mantissa + 2) * unit
  let closed := x.mantissa % 2 = 0
  let above := comparePoint n e low den
  let below := comparePoint n e high den
  (above = .gt || (closed && above = .eq)) && (below = .lt || (closed && below = .eq))

/-- The best of the two grid points with step `10 ^ e` around `x`, if one of them rounds to `x`. -/
def onGrid (x : Binary) (e : Int) : Option Decimal :=
  let (unit, den) := quarterUnit x
  let num := 4 * x.mantissa * unit
  let floor := num * Nat.pow 10 (-e).toNat / (den * Nat.pow 10 e.toNat)
  match roundsTo x floor e, roundsTo x (floor + 1) e with
  | false, false => none
  | true, false => some ⟨floor, e⟩
  | false, true => some ⟨floor + 1, e⟩
  | true, true =>
    match comparePoint (2 * floor + 1) e (2 * num) den with
    | .gt => some ⟨floor, e⟩
    | _ => some ⟨floor + 1, e⟩

/-- The fewest digits, from 1 to 17, for which a grid point rounds to the positive number `x`. -/
def shortest (x : Binary) : Decimal :=
  let (unit, den) := quarterUnit x
  let e := leading (4 * x.mantissa * unit) den
  ((List.range 17).findSome? fun k : Nat => onGrid x (e - k)).getD ⟨0, 0⟩

def written (d : Decimal) : List Char :=
  ((Nat.toDigits 10 d.digits).reverse.dropWhile (· = '0')).reverse

/-- The position of the leading digit, zero for units. -/
def scale (d : Decimal) : Int := d.exponent + width d.digits - 1

end Decimal

end Midend
