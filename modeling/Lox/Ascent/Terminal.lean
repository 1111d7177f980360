import Lox.Diagnostic
import Lox.Text
import Lox.Text.Word

namespace Lox.Ascent

open Text

abbrev Pattern := List Char → Option (List Char × List Char)

def run (p : Char → Bool) : Pattern := fun cs =>
  match cs.takeWhile p with
  | [] => none
  | piece => some (piece, cs.dropWhile p)

def exactly (word : String) : Pattern := fun cs =>
  if word.toList.isPrefixOf cs then some (word.toList, cs.drop word.toList.length) else none

def isSpace (c : Char) : Bool :=
  c == ' ' || c == '\t' || c == '\r' || c == '\n'

def comment : Pattern
  | '/' :: '/' :: cs => some ('/' :: '/' :: cs.takeWhile (· != '\n'), cs.dropWhile (· != '\n'))
  | _ => none

def number : Pattern := fun cs => do
  let (whole, rest) ← run isDigit cs
  match rest with
  | '.' :: rest =>
    match run isDigit rest with
    | some (fraction, rest) => return (whole ++ '.' :: fraction, rest)
    | none => return (whole, '.' :: rest)
  | rest => return (whole, rest)

def string : Pattern
  | '"' :: cs =>
    match cs.dropWhile (· != '"') with
    | [] => none
    | quote :: rest => some ('"' :: cs.takeWhile (· != '"') ++ [quote], rest)
  | _ => none

def reserved : List String :=
  ["class", "fun", "return", "super", "this"]

def beginsReserved (cs : List Char) : Bool :=
  reserved.any fun w =>
    w.toList.isPrefixOf cs && !((cs.drop w.toList.length).head?.any isWord)

def word : Pattern
  | [] => none
  | c :: cs => if isAlpha c then some (c :: cs.takeWhile isAlphanumeric, cs.dropWhile isAlphanumeric) else none

def name : Pattern := fun cs =>
  if beginsReserved cs then none else word cs

def keywords : List (String × Kind) :=
  [("var", .varWord), ("print", .printWord), ("if", .ifWord), ("else", .elseWord), ("while", .whileWord),
    ("for", .forWord), ("true", .trueWord), ("false", .falseWord), ("nil", .nilWord), ("and", .andWord),
    ("or", .orWord)]

def kindOfName (s : String) : Kind :=
  (keywords.lookup s).getD .identifier

def marks : List (String × Kind) :=
  [("!=", .bangEqual), ("==", .equalEqual), (">=", .greaterEqual), ("<=", .lessEqual), ("!", .bang),
    ("=", .equal), (">", .greater), ("<", .less), ("-", .minus), ("+", .plus), ("/", .slash), ("*", .star),
    ("(", .leftParen), (")", .rightParen), ("\x7b", .leftBrace), ("\x7d", .rightBrace), (";", .semicolon)]

structure Terminal where
  pattern : Pattern
  kind? : List Char → Option Kind

def terminals : List Terminal :=
  [⟨run isSpace, fun _ => none⟩, ⟨comment, fun _ => none⟩, ⟨number, fun _ => some .number⟩,
    ⟨string, fun _ => some .string⟩, ⟨name, fun cs => some (kindOfName (String.ofList cs))⟩]
    ++ marks.map fun m => ⟨exactly m.1, fun _ => some m.2⟩

def match? (cs : List Char) : Option (Option Kind × List Char × List Char) :=
  terminals.findSome? fun t => (t.pattern cs).map fun m => (t.kind? m.1, m.1, m.2)

def literal : Kind → List Char → Value
  | .number, cs => .number (Number.ofNumeral cs)
  | .string, cs => .text (String.ofList (cs.drop 1).dropLast)
  | _, _ => .nil

end Lox.Ascent
