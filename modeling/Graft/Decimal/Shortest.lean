/-! # The fewest digits that read back

A finite double stands for all the reals that round to it.  This module selects,
among the decimals in that interval, one with the fewest digits, and of those the
nearest to the double; of two equally near ones the larger.

Everything is exact arithmetic on naturals: a double is `mantissa * 2 ^ exponent`,
a decimal is `digits * 10 ^ exponent`, and the two are compared by multiplying out.
-/

namespace Graft

/-- A decimal: `digits * 10 ^ exponent`. -/
structure Decimal where
  digits : Nat
  exponent : Int
deriving DecidableEq, Repr

namespace Decimal

/-- The same decimal without zeros at the end of its digits; at most so many are moved. -/
def trimWithin : Nat → Decimal → Decimal
  | 0, d => d
  | n + 1, d =>
    if d.digits % 10 = 0 then trimWithin n ⟨d.digits / 10, d.exponent + 1⟩ else d

/-- A finite double without its sign: `mantissa * 2 ^ exponent`. -/
structure Binary where
  mantissa : Nat
  exponent : Int
  /-- The double below is half as far away as the double above. -/
  narrow : Bool
deriving DecidableEq, Repr

/-- The finite double with these bits, its sign dropped. -/
def Binary.ofBits (bits : UInt64) : Binary :=
  let e := ((bits >>> 52) &&& 0x7FF).toNat
  let f := (bits &&& 0xFFFFFFFFFFFFF).toNat
  if e = 0 then ⟨f, -1074, false⟩ else ⟨Nat.pow 2 52 + f, (e : Int) - 1075, f = 0 && e > 1⟩

namespace Binary

/-- `digits * 10 ^ exponent` against `n * 2 ^ k`. -/
def compareScaled (d : Decimal) (n : Nat) (k : Int) : Ordering :=
  compare (d.digits * Nat.pow 10 d.exponent.toNat * Nat.pow 2 (-k).toNat)
    (n * Nat.pow 2 k.toNat * Nat.pow 10 (-d.exponent).toNat)

/-- Does the decimal lie among the reals that round to the double?  The ends of the
interval belong to it exactly when the mantissa is even. -/
def readsBack (x : Binary) (d : Decimal) : Bool :=
  let low := compareScaled d (4 * x.mantissa - (if x.narrow then 1 else 2)) (x.exponent - 2)
  let high := compareScaled d (4 * x.mantissa + 2) (x.exponent - 2)
  let closed := x.mantissa % 2 = 0
  (low = .gt || (closed && low = .eq)) && (high = .lt || (closed && high = .eq))

/-- The double as a quotient of naturals. -/
def ratio (x : Binary) : Nat × Nat :=
  (x.mantissa * Nat.pow 2 x.exponent.toNat, Nat.pow 2 (-x.exponent).toNat)

/-- The greatest multiple of `10 ^ p` that is not above the double, counted in `10 ^ p`. -/
def floorAt (x : Binary) (p : Int) : Nat :=
  x.ratio.1 * Nat.pow 10 (-p).toNat / (x.ratio.2 * Nat.pow 10 p.toNat)

/-- Is the double nearer to `n * 10 ^ p` than to `(n + 1) * 10 ^ p`? -/
def nearerBelow (x : Binary) (n : Nat) (p : Int) : Bool :=
  2 * (x.ratio.1 * Nat.pow 10 (-p).toNat) < (2 * n + 1) * (x.ratio.2 * Nat.pow 10 p.toNat)

/-- The number of digits before the decimal point; for a double below one tenth,
minus the number of zeros after it. -/
def scale (x : Binary) : Int :=
  ((Nat.toDigits 10 (x.floorAt (-350))).length : Int) - 350

/-- The decimal on the grid `10 ^ p` that reads back, if there is one. -/
def onGrid? (x : Binary) (p : Int) : Option Decimal :=
  let n := x.floorAt p
  let below : Decimal := ⟨n, p⟩
  let above : Decimal := ⟨n + 1, p⟩
  match x.readsBack below, x.readsBack above with
  | true, true => some (if x.nearerBelow n p then below else above)
  | true, false => some below
  | false, true => some above
  | false, false => none

/-- The exact value of the double as a decimal. -/
def exact (x : Binary) : Decimal :=
  if x.exponent < 0 then ⟨x.mantissa * Nat.pow 5 (-x.exponent).toNat, x.exponent⟩
  else ⟨x.mantissa * Nat.pow 2 x.exponent.toNat, 0⟩

/-- The decimal of the coarsest grid that has one.  Seventeen digits are enough for
every double, so the exact value after them is never needed.  The nearest point of a
grid may be a point of coarser grids too, ten tenths being one, so its zeros are moved
to the exponent; it has at most seventeen digits and one more. -/
def shortest (x : Binary) : Decimal :=
  let found := (List.range 17).findSome? fun (n : Nat) => x.onGrid? (x.scale - 1 - n)
  trimWithin 18 (found.getD x.exact)

end Binary

end Decimal

end Graft
