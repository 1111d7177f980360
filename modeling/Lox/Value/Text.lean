import Lox.Number.Text
import Lox.Text.Printable
import Lox.Value

namespace Lox.Value

mutual

def quoted : Value → String
  | .nil => "None"
  | .bool true => "True"
  | .bool false => "False"
  | .whole i => toString i
  | .number x => Number.plain.write x
  | .text s => Text.quoted s
  | .list items => "[" ++ ", ".intercalate (quotedItems items) ++ "]"
  | .record fields => "\x7b" ++ ", ".intercalate (quotedFields fields) ++ "\x7d"

def quotedItems : List Value → List String
  | [] => []
  | v :: vs => v.quoted :: quotedItems vs

def quotedFields : List (String × Value) → List String
  | [] => []
  | (k, v) :: fs => (Text.quoted k ++ ": " ++ v.quoted) :: quotedFields fs

end

def described : Value → String
  | .text s => s
  | v => v.quoted

/-- A whole number is printed with all its digits, and a negative zero keeps its sign. -/
def printedNumber (x : Float) : String :=
  match Number.anatomy x with
  | .nan => "NaN"
  | .infinite negative => if negative then "-Infinity" else "Infinity"
  | .finite d =>
    match d.toInt? with
    | some i => if d.negative && i == 0 then "-0" else toString i
    | none => Number.plain.write x

def printed : Value → String
  | .nil => "nil"
  | .bool true => "true"
  | .bool false => "false"
  | .number x => printedNumber x
  | v => v.described

end Lox.Value
