import Graft.Decimal.Shortest

/-! # Doubles as text

A double is written with the fewest digits that read back to it, always
positionally: there is no exponent, however many zeros that takes.  An integral
value has no point.  Zero keeps its sign.
-/

namespace Graft.Decimal

/-- The digits with a point where the exponent puts it. -/
def positional (d : Decimal) : String :=
  let digits := toString d.digits
  if d.exponent ≥ 0 then digits ++ String.ofList (List.replicate d.exponent.toNat '0')
  else
    let places := (-d.exponent).toNat
    let padded := List.replicate (places + 1 - digits.length) '0' ++ digits.toList
    let whole := padded.take (padded.length - places)
    let fraction := padded.drop (padded.length - places)
    String.ofList (whole ++ '.' :: fraction)

/-- The text of a double. -/
def text (x : Float) : String :=
  let bits := x.toBits
  let sign := if bits >>> 63 = 1 then "-" else ""
  if x.isNaN then "NaN"
  else if x.isInf then sign ++ "inf"
  else
    let b := Binary.ofBits bits
    if b.mantissa = 0 then sign ++ "0" else sign ++ b.shortest.positional

end Graft.Decimal
