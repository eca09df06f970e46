/-! # Numerals

The numeric reading of a text is that of the longest numeral it begins with: an
optional sign, digits with at most one point among them, and an exponent, which
counts only if digits follow its mark.

`Numeral.scan?` cuts that numeral off; its parts are kept as they stand in the
text, so that `Numeral.text` gives the piece back.  `Numeral.value` is the nearest
double, a half going to the even neighbour.
-/

namespace Graft.Decimal

/-- The exponent of a numeral: its mark, its sign if there is one, its digits. -/
structure Exponent where
  mark : Char
  sign : Option Char
  digits : List Char
deriving DecidableEq, Repr

/-- A numeral as it is written. -/
structure Numeral where
  sign : Option Char
  whole : List Char
  /-- The digits after the point, if there is a point. -/
  fraction : Option (List Char)
  exponent : Option Exponent
deriving DecidableEq, Repr

def isDigit (c : Char) : Bool := '0' ≤ c && c ≤ '9'

/-- The number that a list of digits denotes. -/
def digitsValue (ds : List Char) : Nat :=
  ds.foldl (fun n c => 10 * n + (c.toNat - '0'.toNat)) 0

/-- The digits at the front, and the rest. -/
def scanDigits (s : List Char) : List Char × List Char :=
  (s.takeWhile isDigit, s.dropWhile isDigit)

/-- A sign at the front, and the rest. -/
def scanSign : List Char → Option Char × List Char
  | '+' :: s => (some '+', s)
  | '-' :: s => (some '-', s)
  | s => (none, s)

/-- A point and the digits after it, and the rest. -/
def scanFraction : List Char → Option (List Char) × List Char
  | '.' :: s => (some (scanDigits s).1, (scanDigits s).2)
  | s => (none, s)

/-- An exponent at the front: a mark, perhaps a sign, and at least one digit. -/
def scanExponent? : List Char → Option Exponent
  | c :: s =>
    if c = 'e' || c = 'E' then
      let (sign, s) := scanSign s
      let (digits, _) := scanDigits s
      if digits.isEmpty then none else some ⟨c, sign, digits⟩
    else none
  | [] => none

namespace Exponent

def text (e : Exponent) : List Char := e.mark :: e.sign.toList ++ e.digits

def value (e : Exponent) : Int :=
  if e.sign = some '-' then -(digitsValue e.digits : Int) else digitsValue e.digits

end Exponent

namespace Numeral

/-- The numeral at the front of a text: none if there is no digit before the
exponent. -/
def scan? (s : List Char) : Option Numeral :=
  let (sign, s) := scanSign s
  let (whole, s) := scanDigits s
  let (fraction, s) := scanFraction s
  if whole.isEmpty && (fraction.getD []).isEmpty then none
  else some ⟨sign, whole, fraction, scanExponent? s⟩

/-- The numeral as it stands in the text. -/
def text (n : Numeral) : List Char :=
  n.sign.toList ++ n.whole ++ (n.fraction.elim [] ('.' :: ·)) ++ (n.exponent.elim [] Exponent.text)

/-- The numeral without its sign is `mantissa * 10 ^ scale`. -/
def mantissa (n : Numeral) : Nat := digitsValue (n.whole ++ n.fraction.getD [])

def scale (n : Numeral) : Int :=
  (n.exponent.elim 0 Exponent.value) - (n.fraction.getD []).length

/-- The nearest double to `m * 10 ^ e`.  What lies beyond `10 ^ 310` is infinite and
what lies below `10 ^ (-330)` is zero, so that no power outside these bounds is
computed. -/
def nearest (m : Nat) (e : Int) : Float :=
  let size := e + (Nat.toDigits 10 m).length
  if m = 0 then 0.0
  else if size > 310 then 1.0 / 0.0
  else if size < -330 then 0.0
  else Float.ofScientific m (e < 0) e.natAbs

/-- The double that the numeral denotes; a negative zero keeps its sign. -/
def value (n : Numeral) : Float :=
  let x := nearest n.mantissa n.scale
  if n.sign = some '-' then -x else x

end Numeral

end Graft.Decimal
