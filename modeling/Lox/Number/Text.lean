import Lox.Number.Shortest

namespace Lox.Number

/-- How a number is laid out. A decimal exponent from `lowest` to below `highest` is written
positionally, any other in scientific form. -/
structure Layout where
  lowest : Int
  highest : Int
  exponentDigits : Nat
  nan : String
  infinity : String

def plain : Layout := ⟨-4, 16, 2, "nan", "inf"⟩

def json : Layout := { plain with nan := "NaN", infinity := "Infinity" }

def zeros (n : Nat) : String :=
  String.ofList (List.replicate n '0')

def significant (n : Nat) : List Char :=
  ((Nat.toDigits 10 n).reverse.dropWhile (· == '0')).reverse

namespace Layout

def exponentText (l : Layout) (e : Int) : String :=
  let digits := toString e.natAbs
  (if e < 0 then "e-" else "e+") ++ zeros (l.exponentDigits - digits.length) ++ digits

def decimal (l : Layout) (d : Decimal) : String :=
  let digits := significant d.coefficient
  let count := digits.length
  let exponent := d.exponent + ((Nat.toDigits 10 d.coefficient).length : Int) - 1
  if l.lowest ≤ exponent ∧ exponent < l.highest then
    if exponent < 0 then "0." ++ zeros (-exponent - 1).toNat ++ String.ofList digits
    else
      let whole := (exponent + 1).toNat
      if count ≤ whole then String.ofList digits ++ zeros (whole - count) ++ ".0"
      else String.ofList (digits.take whole) ++ "." ++ String.ofList (digits.drop whole)
  else
    let fraction := if count = 1 then "" else "." ++ String.ofList (digits.drop 1)
    String.ofList (digits.take 1) ++ fraction ++ l.exponentText exponent

def write (l : Layout) (x : Float) : String :=
  match anatomy x with
  | .nan => l.nan
  | .infinite negative => if negative then "-" ++ l.infinity else l.infinity
  | .finite d =>
    let size := if d.mantissa = 0 then "0.0" else l.decimal (shortest d)
    if d.negative then "-" ++ size else size

end Layout

def ofDigits (digits : List Char) : Nat :=
  digits.foldl (fun n c => 10 * n + (c.toNat - '0'.toNat)) 0

def infinity : Float := Float.ofBits 0x7FF0000000000000

def nearest (coefficient : Nat) (exponent : Int) : Float :=
  let top := exponent + ((Nat.toDigits 10 coefficient).length : Int)
  if coefficient = 0 ∨ top < -330 then 0.0
  else if 310 < top then infinity
  else Float.ofScientific coefficient (exponent < 0) exponent.natAbs

def ofDecimal (whole fraction : List Char) : Float :=
  nearest (ofDigits (whole ++ fraction)) (-(fraction.length : Int))

def ofNumeral (cs : List Char) : Float :=
  ofDecimal (cs.takeWhile Text.isDigit) ((cs.dropWhile Text.isDigit).drop 1)

def ofInt? (i : Int) : Option Float :=
  let size := nearest i.natAbs 0
  if size == infinity then none else some (if i < 0 then -size else size)

end Lox.Number
