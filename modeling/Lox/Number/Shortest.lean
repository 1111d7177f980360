import Lox.Number

/-!
The fewest decimal digits that read back as a given binary64 number, and of those the nearest to it.
-/
namespace Lox.Number

structure Decimal where
  coefficient : Nat
  exponent : Int
  deriving DecidableEq, Inhabited

/-- The reals that round to a positive binary64 number, as fractions over one denominator. Both ends
belong to the interval when the number's mantissa is even. -/
structure Interval where
  low : Nat
  value : Nat
  high : Nat
  denominator : Nat
  closed : Bool

def Dyadic.interval (d : Dyadic) : Interval :=
  let e := d.exponent - 2
  let up := Nat.pow 2 e.toNat
  let down := if d.mantissa = Nat.pow 2 52 ∧ -1074 < d.exponent then 1 else 2
  ⟨(4 * d.mantissa - down) * up, 4 * d.mantissa * up, (4 * d.mantissa + 2) * up, Nat.pow 2 (-e).toNat,
    d.mantissa % 2 == 0⟩

def leadingZeros (denominator : Nat) : Nat → Nat → Nat
  | 0, _ => 0
  | fuel + 1, n => if denominator ≤ n then 0 else leadingZeros denominator fuel (10 * n) + 1

def magnitude (n denominator : Nat) : Int :=
  if denominator ≤ n then (Nat.toDigits 10 (n / denominator)).length
  else 1 - (leadingZeros denominator 400 n : Nat)

namespace Interval

def onGrid? (i : Interval) (exponent : Int) : Option Decimal :=
  let fine := Nat.pow 10 (-exponent).toNat
  let unit := i.denominator * Nat.pow 10 exponent.toNat
  let below := i.value * fine / unit
  let inside (c : Nat) :=
    if i.closed then i.low * fine ≤ c * unit && c * unit ≤ i.high * fine
    else i.low * fine < c * unit && c * unit < i.high * fine
  let toBelow := i.value * fine - below * unit
  let toAbove := (below + 1) * unit - i.value * fine
  match inside below, inside (below + 1) with
  | true, true =>
    if toBelow < toAbove || toBelow == toAbove && below % 2 == 0 then some ⟨below, exponent⟩
    else some ⟨below + 1, exponent⟩
  | true, false => some ⟨below, exponent⟩
  | false, true => some ⟨below + 1, exponent⟩
  | false, false => none

def coarsest (i : Interval) : Nat → Int → Decimal
  | 0, exponent => ⟨i.value * Nat.pow 10 (-exponent).toNat / (i.denominator * Nat.pow 10 exponent.toNat), exponent⟩
  | count + 1, exponent => (i.onGrid? exponent).getD (coarsest i count (exponent - 1))

end Interval

/-- Seventeen digits always suffice. -/
def shortest (d : Dyadic) : Decimal :=
  if d.mantissa = 0 then ⟨0, 0⟩
  else
    let i := d.interval
    i.coarsest 17 (magnitude i.value i.denominator - 1)

end Lox.Number
