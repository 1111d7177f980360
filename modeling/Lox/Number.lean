import Lox.Text

namespace Lox.Number

structure Dyadic where
  negative : Bool
  mantissa : Nat
  exponent : Int
  deriving DecidableEq, Inhabited

inductive Anatomy where
  | nan
  | infinite (negative : Bool)
  | finite (d : Dyadic)
  deriving DecidableEq, Inhabited

def anatomy (x : Float) : Anatomy :=
  let bits := x.toBits.toNat
  let negative := bits / Nat.pow 2 63 == 1
  let exponent : Nat := bits / Nat.pow 2 52 % 2048
  let fraction : Nat := bits % Nat.pow 2 52
  if exponent = 2047 then if fraction = 0 then .infinite negative else .nan
  else if exponent = 0 then .finite ⟨negative, fraction, -1074⟩
  else .finite ⟨negative, Nat.pow 2 52 + fraction, (exponent : Int) - 1075⟩

namespace Dyadic

def toInt? (d : Dyadic) : Option Int :=
  let sign : Int := if d.negative then -1 else 1
  if 0 ≤ d.exponent then some (sign * (d.mantissa * Nat.pow 2 d.exponent.toNat : Nat))
  else
    let unit := Nat.pow 2 (-d.exponent).toNat
    if d.mantissa % unit = 0 then some (sign * (d.mantissa / unit : Nat)) else none

def truncate (d : Dyadic) : Int :=
  let sign : Int := if d.negative then -1 else 1
  if 0 ≤ d.exponent then sign * (d.mantissa * Nat.pow 2 d.exponent.toNat : Nat)
  else sign * (d.mantissa / Nat.pow 2 (-d.exponent).toNat : Nat)

end Dyadic

def toAscii (c : Char) : Char :=
  if c.toNat < 127 then c
  else if Text.isBlank c then ' '
  else match Text.digitValue? c with
    | some n => Char.ofNat ('0'.toNat + n)
    | none => c

def isAsciiBlank (c : Char) : Bool :=
  c == ' ' || '\t' ≤ c && c ≤ '\r'

def digitsFrom? (n : Nat) : List Char → Option Nat
  | [] => some n
  | c :: cs =>
    if '0' ≤ c ∧ c ≤ '9' then digitsFrom? (10 * n + (c.toNat - '0'.toNat)) cs
    else if c = '_' then
      match cs with
      | [] => none
      | d :: ds => if '0' ≤ d ∧ d ≤ '9' then digitsFrom? (10 * n + (d.toNat - '0'.toNat)) ds else none
    else none

def natural? : List Char → Option Nat
  | [] => none
  | c :: cs => if c = '_' then none else digitsFrom? 0 (c :: cs)

def whole? (s : String) : Option Int :=
  let cs := (s.toList.map toAscii).dropWhile isAsciiBlank
  match (cs.reverse.dropWhile isAsciiBlank).reverse with
  | '-' :: ds => (natural? ds).map fun n => -(n : Int)
  | '+' :: ds => (natural? ds).map Int.ofNat
  | ds => (natural? ds).map Int.ofNat

end Lox.Number
