import Midend.Decimal.Shortest

namespace Midend

structure NumberStyle where
  /-- The smallest position of the leading digit that is written positionally. -/
  positionalFrom : Int
  /-- The first position of the leading digit that is not. -/
  positionalBelow : Int
  wholeSuffix : String
  exponentMark : String
  nan : String
  infinite : String
deriving Repr

namespace NumberStyle

/-- Digits with a point at the position that `scale` gives for the leading one. -/
def positional (style : NumberStyle) (digits : List Char) (scale : Int) : String :=
  let whole := (scale + 1).toNat
  if scale < 0 then
    "0." ++ String.ofList (List.replicate (-scale - 1).toNat '0' ++ digits)
  else if digits.length ≤ whole then
    String.ofList (digits ++ List.replicate (whole - digits.length) '0') ++ style.wholeSuffix
  else String.ofList (digits.take whole) ++ "." ++ String.ofList (digits.drop whole)

/-- One digit, a point before any others, and the exponent. -/
def scientific (style : NumberStyle) (digits : List Char) (scale : Int) : String :=
  String.ofList (digits.take 1) ++
    (if digits.length ≤ 1 then "" else "." ++ String.ofList (digits.drop 1)) ++
    style.exponentMark ++ scale.repr

def magnitude (style : NumberStyle) (x : Binary) : String :=
  if x.mantissa = 0 then style.positional ['0'] 0
  else
    let d := Decimal.shortest x
    if style.positionalFrom ≤ d.scale && d.scale < style.positionalBelow then
      style.positional d.written d.scale
    else style.scientific d.written d.scale

/-- The number with a 64-bit pattern; a NaN shows no sign. -/
def write (style : NumberStyle) (bits : UInt64) : String :=
  match Binary64.ofBits bits with
  | .nan => style.nan
  | .infinite negative => (if negative then "-" else "") ++ style.infinite
  | .finite negative x => (if negative then "-" else "") ++ style.magnitude x

end NumberStyle

end Midend
