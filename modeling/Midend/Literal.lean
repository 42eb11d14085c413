import Midend.Decimal.Style
import Midend.Text.Quoted

namespace Midend

/-- A floating-point literal is its bit pattern, so two NaNs with the same pattern are one literal
and the two zeros are different ones. -/
inductive Literal where
  | nil
  | bool (b : Bool)
  | int (n : Int64)
  | float (bits : UInt64)
  | str (s : String)
deriving DecidableEq, Repr

namespace Literal

/-- Numbers from a ten-thousandth up to ten quadrillion are written out, the others with an
exponent, and whole ones keep a zero after the point. -/
def floatStyle : NumberStyle where
  positionalFrom := -4
  positionalBelow := 16
  wholeSuffix := ".0"
  exponentMark := "e"
  nan := "NaN"
  infinite := "inf"

def text : Literal → String
  | nil => "nil"
  | bool b => if b then "true" else "false"
  | int n => n.toInt.repr
  | float bits => floatStyle.write bits
  | str s => Text.quoted s

end Literal

end Midend
