import Lox.Number.Text
import Lox.Value

namespace Lox.Json

def escaped (c : Char) : List Char :=
  if c = '"' then ['\\', '"']
  else if c = '\\' then ['\\', '\\']
  else if c = '\n' then ['\\', 'n']
  else if c = '\r' then ['\\', 'r']
  else if c = '\t' then ['\\', 't']
  else if c.toNat = 8 then ['\\', 'b']
  else if c.toNat = 12 then ['\\', 'f']
  else if c.toNat < 0x20 then
    let digits := Nat.toDigits 16 c.toNat
    ['\\', 'u'] ++ List.replicate (4 - digits.length) '0' ++ digits
  else [c]

def string (s : String) : String :=
  String.ofList ('"' :: s.toList.flatMap escaped ++ ['"'])

structure Style where
  width? : Option Nat

def compact : Style := ⟨none⟩

def indented : Style := ⟨some 2⟩

namespace Style

def lineBreak (style : Style) (level : Nat) : String :=
  match style.width? with
  | none => ""
  | some width => "\n" ++ String.ofList (List.replicate (width * level) ' ')

def separator (style : Style) (level : Nat) : String :=
  match style.width? with
  | none => ", "
  | some _ => "," ++ style.lineBreak level

def enclose (style : Style) (level : Nat) (opening closing : String) (parts : List String) : String :=
  if parts.isEmpty then opening ++ closing
  else
    opening ++ style.lineBreak (level + 1) ++ (style.separator (level + 1)).intercalate parts
      ++ style.lineBreak level ++ closing

mutual

def value (style : Style) (level : Nat) : Value → String
  | .nil => "null"
  | .bool true => "true"
  | .bool false => "false"
  | .whole i => toString i
  | .number x => Number.json.write x
  | .text s => string s
  | .list items => style.enclose level "[" "]" (itemTexts style (level + 1) items)
  | .record fields => style.enclose level "\x7b" "\x7d" (fieldTexts style (level + 1) fields)

def itemTexts (style : Style) (level : Nat) : List Value → List String
  | [] => []
  | v :: vs => style.value level v :: itemTexts style level vs

def fieldTexts (style : Style) (level : Nat) : List (String × Value) → List String
  | [] => []
  | (k, v) :: fs => (string k ++ ": " ++ style.value level v) :: fieldTexts style level fs

end

end Style

def write (style : Style) (v : Value) : String :=
  style.value 0 v

end Lox.Json
