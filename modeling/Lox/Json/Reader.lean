import Lox.Entries
import Lox.Number.Text
import Lox.Text
import Lox.Value

namespace Lox.Json

open Text

inductive ReadError where
  | malformed
  | tooDeep
  deriving DecidableEq, Inhabited

abbrev Reader (α : Type) := List Char → Except ReadError (α × List Char)

def isSpace (c : Char) : Bool :=
  c == ' ' || c == '\t' || c == '\n' || c == '\r'

def skipSpace (cs : List Char) : List Char :=
  cs.dropWhile isSpace

def hexValue? (c : Char) : Option Nat :=
  if '0' ≤ c ∧ c ≤ '9' then some (c.toNat - '0'.toNat)
  else if 'a' ≤ c ∧ c ≤ 'f' then some (c.toNat - 'a'.toNat + 10)
  else if 'A' ≤ c ∧ c ≤ 'F' then some (c.toNat - 'A'.toNat + 10)
  else none

def unit? (a b c d : Char) : Option Nat := do
  let w ← hexValue? a
  let x ← hexValue? b
  let y ← hexValue? c
  let z ← hexValue? d
  return ((w * 16 + x) * 16 + y) * 16 + z

def replacement : Char := Char.ofNat 0xFFFD

def ofUnit (n : Nat) : Char :=
  if h : n.isValidChar then Char.ofNatAux n h else replacement

def ofPair? (high low : Nat) : Option Char :=
  if 0xD800 ≤ high ∧ high < 0xDC00 ∧ 0xDC00 ≤ low ∧ low < 0xE000 then
    some (ofUnit (0x10000 + (high - 0xD800) * 0x400 + (low - 0xDC00)))
  else none

def simpleEscape? : Char → Option Char
  | '"' => some '"'
  | '\\' => some '\\'
  | '/' => some '/'
  | 'b' => some (Char.ofNat 8)
  | 'f' => some (Char.ofNat 12)
  | 'n' => some '\n'
  | 'r' => some '\r'
  | 't' => some '\t'
  | _ => none

def readString (before : List Char) : Reader String
  | [] => .error .malformed
  | '"' :: rest => .ok (String.ofList before.reverse, rest)
  | '\\' :: 'u' :: a :: b :: c :: d :: '\\' :: 'u' :: e :: f :: g :: h :: rest =>
    match unit? a b c d, unit? e f g h with
    | some high, some low =>
      match ofPair? high low with
      | some p => readString (p :: before) rest
      | none => readString (ofUnit high :: before) ('\\' :: 'u' :: e :: f :: g :: h :: rest)
    | some single, none => readString (ofUnit single :: before) ('\\' :: 'u' :: e :: f :: g :: h :: rest)
    | none, _ => .error .malformed
  | '\\' :: 'u' :: a :: b :: c :: d :: rest =>
    match unit? a b c d with
    | some n => readString (ofUnit n :: before) rest
    | none => .error .malformed
  | '\\' :: c :: rest =>
    match simpleEscape? c with
    | some e => readString (e :: before) rest
    | none => .error .malformed
  | c :: rest => if c.toNat < 0x20 then .error .malformed else readString (c :: before) rest

def fractionPart : List Char → List Char × List Char
  | '.' :: cs =>
    match cs.takeWhile isDigit with
    | [] => ([], '.' :: cs)
    | digits => (digits, cs.dropWhile isDigit)
  | cs => ([], cs)

def signedExponent (negative : Bool) (cs : List Char) : Option (Int × List Char) :=
  match cs.takeWhile isDigit with
  | [] => none
  | digits =>
    let size : Int := Number.ofDigits digits
    some (if negative then -size else size, cs.dropWhile isDigit)

def exponentPart? : List Char → Option (Int × List Char)
  | e :: cs =>
    if e == 'e' || e == 'E' then
      match cs with
      | '-' :: ds => signedExponent true ds
      | '+' :: ds => signedExponent false ds
      | ds => signedExponent false ds
    else none
  | [] => none

def readNumber (negative : Bool) (cs : List Char) : Except ReadError (Value × List Char) :=
  match cs with
  | [] => .error .malformed
  | first :: _ =>
    if !isDigit first then .error .malformed
    else
      let digits := if first == '0' then ['0'] else cs.takeWhile isDigit
      let (fraction, afterFraction) := fractionPart (cs.drop digits.length)
      let exponent? := exponentPart? afterFraction
      if fraction.isEmpty && exponent?.isNone then
        let size : Int := Number.ofDigits digits
        .ok (.whole (if negative then -size else size), afterFraction)
      else
        let (exponent, rest) := exponent?.getD (0, afterFraction)
        let size := Number.nearest (Number.ofDigits (digits ++ fraction)) (exponent - fraction.length)
        .ok (.number (if negative then -size else size), rest)

def readItems (value : Reader Value) : Nat → List Value → Reader (List Value)
  | 0, _, _ => .error .malformed
  | count + 1, before, cs => do
    let (v, rest) ← value (skipSpace cs)
    match skipSpace rest with
    | ',' :: rest => readItems value count (v :: before) rest
    | ']' :: rest => return ((v :: before).reverse, rest)
    | _ => .error .malformed

def readFields (value : Reader Value) : Nat → Entries String Value → Reader (Entries String Value)
  | 0, _, _ => .error .malformed
  | count + 1, before, cs =>
    match skipSpace cs with
    | '"' :: rest => do
      let (name, rest) ← readString [] rest
      match skipSpace rest with
      | ':' :: rest =>
        let (v, rest) ← value (skipSpace rest)
        let fields := before.set name v
        match skipSpace rest with
        | ',' :: rest => readFields value count fields rest
        | '}' :: rest => return (fields, rest)
        | _ => .error .malformed
      | _ => .error .malformed
    | _ => .error .malformed

def readValue (size : Nat) : Nat → Reader Value
  | 0, _ => .error .tooDeep
  | depth + 1, cs =>
    match cs with
    | '"' :: rest => (readString [] rest).map fun p => (.text p.1, p.2)
    | '{' :: rest =>
      match skipSpace rest with
      | '}' :: rest => .ok (.record [], rest)
      | rest => (readFields (readValue size depth) size [] rest).map fun p => (.record p.1, p.2)
    | '[' :: rest =>
      match skipSpace rest with
      | ']' :: rest => .ok (.list [], rest)
      | rest => (readItems (readValue size depth) size [] rest).map fun p => (.list p.1, p.2)
    | 'n' :: 'u' :: 'l' :: 'l' :: rest => .ok (.nil, rest)
    | 't' :: 'r' :: 'u' :: 'e' :: rest => .ok (.bool true, rest)
    | 'f' :: 'a' :: 'l' :: 's' :: 'e' :: rest => .ok (.bool false, rest)
    | 'N' :: 'a' :: 'N' :: rest => .ok (.number (Float.ofBits 0x7FF8000000000000), rest)
    | 'I' :: 'n' :: 'f' :: 'i' :: 'n' :: 'i' :: 't' :: 'y' :: rest => .ok (.number Number.infinity, rest)
    | '-' :: 'I' :: 'n' :: 'f' :: 'i' :: 'n' :: 'i' :: 't' :: 'y' :: rest =>
      .ok (.number (-Number.infinity), rest)
    | '-' :: rest => readNumber true rest
    | cs => readNumber false cs

def depthLimit : Nat := 980

def read (text : String) : Except ReadError Value := do
  let cs := text.toList
  let (v, rest) ← readValue cs.length depthLimit (skipSpace cs)
  if (skipSpace rest).isEmpty then return v else .error .malformed

end Lox.Json
