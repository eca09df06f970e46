import Graft.Decimal.Numeral
import Graft.Decimal.Positional
import Graft.Text.Blank

/-! # Scalars

The values that boxes hold.  A scalar has a numeric reading, a truth value and a
text, whatever its kind.
-/

namespace Graft

/-- A value of the running program. -/
inductive Scalar where
  | undefined
  | int (value : Int64)
  | uint (value : UInt64)
  | num (value : Float)
  | str (text : String)
deriving Repr

instance : Inhabited Scalar := ⟨.undefined⟩

namespace Scalar

/-- The numeric reading of a text: the longest numeral at its front, blanks before it
apart, and zero if there is none. -/
def textNum (s : String) : Float :=
  match Decimal.Numeral.scan? (Text.trimStart s.toList) with
  | some n => n.value
  | none => 0.0

/-- The numeric reading. -/
def toNum : Scalar → Float
  | undefined => 0.0
  | int i => i.toFloat
  | uint u => u.toFloat
  | num x => x
  | str s => textNum s

/-- The truth value: undefined, zero, the empty text and the text `0` are false. -/
def isTrue : Scalar → Bool
  | undefined => false
  | int i => i != 0
  | uint u => u != 0
  | num x => x != 0.0
  | str s => s != "" && s != "0"

def isUndefined : Scalar → Bool
  | undefined => true
  | _ => false

/-- The text of a scalar. -/
def text : Scalar → String
  | undefined => ""
  | int i => toString i.toInt
  | uint u => toString u.toNat
  | num x => Decimal.text x
  | str s => s

end Scalar

end Graft
