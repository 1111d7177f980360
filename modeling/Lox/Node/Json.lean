import Lox.Entries
import Lox.Node
import Lox.Number
import Lox.Value.Text

namespace Lox

inductive Unwritable where
  | guest (kind : String)
  | tooDeep
  deriving DecidableEq, Inhabited

def Unwritable.message? : Unwritable → Option String
  | .guest kind => some ("Unsupported node for serialization: " ++ kind)
  | .tooDeep => none

inductive Unreadable where
  | notAProgram
  | notANode
  | unknownType (type : Value)
  | missingField (name : String)
  | unknownKind (kind : Value)
  | notASequence (kind : String)
  | lineNotANumber (kind : String)
  | lineNotWhole (text : String)
  | lineNotFinite (nan : Bool)
  | numberTooLarge
  | tooDeep
  deriving DecidableEq, Inhabited

def Unreadable.message? : Unreadable → Option String
  | .notAProgram => some "AST JSON must contain a Program object"
  | .notANode => some "Invalid AST object"
  | .unknownType t => some ("Unknown AST node type: " ++ t.described)
  | .missingField name => some (Text.quoted name)
  | .unknownKind (.list _) => some "unhashable type: 'list'"
  | .unknownKind (.record _) => some "unhashable type: 'dict'"
  | .unknownKind k => some k.quoted
  | .notASequence kind => some ("'" ++ kind ++ "' object is not iterable")
  | .lineNotANumber kind =>
    some ("int() argument must be a string, a bytes-like object or a real number, not '" ++ kind ++ "'")
  | .lineNotWhole s =>
    some ("invalid literal for int() with base 10: " ++ String.ofList ((Text.quoted s).toList.take 200))
  | .lineNotFinite true => some "cannot convert float NaN to integer"
  | .lineNotFinite false => some "cannot convert float infinity to integer"
  | .numberTooLarge => some "int too large to convert to float"
  | .tooDeep => none

def Token.toJson (t : Token) : Value :=
  .record [("__type__", .text "Token"), ("kind", .text t.kind.name), ("lexeme", t.lexeme),
    ("literal", t.literal), ("line", .whole t.line)]

def Value.toJson : Value → Except Unwritable Value
  | .list vs => .error (.guest (Value.kindName (.list vs)))
  | .record fs => .error (.guest (Value.kindName (.record fs)))
  | v => .ok v

def nodeRecord (kind : String) (parts : Entries String Value) : Value :=
  .record (("type", .text kind) :: parts)

namespace Node

mutual

def toJson : Node → Except Unwritable Value
  | .data v => v.toJson
  | .token t => .ok t.toJson
  | .literal v => do
    let v ← v.toJson
    return nodeRecord "Literal" [("value", v)]
  | .grouping e => do
    let e ← e.toJson
    return nodeRecord "Grouping" [("expression", e)]
  | .unary o e => do
    let o ← o.toJson
    let e ← e.toJson
    return nodeRecord "Unary" [("operator", o), ("right", e)]
  | .binary a o b => do
    let a ← a.toJson
    let o ← o.toJson
    let b ← b.toJson
    return nodeRecord "Binary" [("left", a), ("operator", o), ("right", b)]
  | .logical a o b => do
    let a ← a.toJson
    let o ← o.toJson
    let b ← b.toJson
    return nodeRecord "Logical" [("left", a), ("operator", o), ("right", b)]
  | .variable n => do
    let n ← n.toJson
    return nodeRecord "Variable" [("name", n)]
  | .assign n e => do
    let n ← n.toJson
    let e ← e.toJson
    return nodeRecord "Assign" [("name", n), ("value", e)]
  | .expression e => do
    let e ← e.toJson
    return nodeRecord "Expression" [("expression", e)]
  | .print e => do
    let e ← e.toJson
    return nodeRecord "Print" [("expression", e)]
  | .var n e => do
    let n ← n.toJson
    let e ← e.toJson
    return nodeRecord "Var" [("name", n), ("initializer", e)]
  | .block ss => do
    let ss ← toJsonAll ss
    return nodeRecord "Block" [("statements", .list ss)]
  | .branch c a b => do
    let c ← c.toJson
    let a ← a.toJson
    let b ← b.toJson
    return nodeRecord "If" [("condition", c), ("then_branch", a), ("else_branch", b)]
  | .loop c b => do
    let c ← c.toJson
    let b ← b.toJson
    return nodeRecord "While" [("condition", c), ("body", b)]

def toJsonAll : List Node → Except Unwritable (List Value)
  | [] => .ok []
  | n :: ns => do
    let v ← n.toJson
    let vs ← toJsonAll ns
    return v :: vs

end

mutual

def depth : Node → Nat
  | .data _ | .token _ | .literal _ => 1
  | .grouping e | .variable e | .expression e | .print e => 1 + e.depth
  | .unary a b | .assign a b | .var a b | .loop a b => 1 + max a.depth b.depth
  | .binary a b c | .logical a b c | .branch a b c => 1 + max a.depth (max b.depth c.depth)
  | .block ss => 1 + depthAll ss

def depthAll : List Node → Nat
  | [] => 0
  | n :: ns => max n.depth (depthAll ns)

end

def depthLimit : Nat := 960

def write (statements : List Node) : Except Unwritable (List Value) :=
  if depthAll statements ≤ depthLimit then toJsonAll statements else .error .tooDeep

def programRecord (body : List Value) : Value :=
  .record [("type", .text "Program"), ("body", .list body)]

end Node

def lineOfJson : Value → Except Unreadable Int
  | .whole i => .ok i
  | .bool b => .ok (if b then 1 else 0)
  | .number x =>
    match Number.anatomy x with
    | .nan => .error (.lineNotFinite true)
    | .infinite _ => .error (.lineNotFinite false)
    | .finite d => .ok d.truncate
  | .text s => (Number.whole? s).elim (.error (.lineNotWhole s)) .ok
  | v => .error (.lineNotANumber v.kindName)

def field (fields : Entries String Value) (name : String) : Except Unreadable Value :=
  (fields.get? name).elim (.error (.missingField name)) .ok

def optionalField (fields : Entries String Value) (name : String) : Value :=
  (fields.get? name).getD .nil

def kindOfJson : Value → Except Unreadable Kind
  | .text s => (Kind.ofName? s).elim (.error (.unknownKind (.text s))) .ok
  | v => .error (.unknownKind v)

def Token.ofFields (fields : Entries String Value) : Except Unreadable Token := do
  let kind ← kindOfJson (← field fields "kind")
  let lexeme ← field fields "lexeme"
  let line ← lineOfJson (← field fields "line")
  return ⟨kind, lexeme, optionalField fields "literal", line⟩

/-- JSON does not tell a whole number from a number without a fraction; a literal holds the latter. -/
def literalOfJson : Value → Except Unreadable Value
  | .whole i => (Number.ofInt? i).elim (.error .numberTooLarge) (.ok ∘ .number)
  | v => .ok v

def itemsOfJson : Value → Except Unreadable (List Value)
  | .list vs => .ok vs
  | .text s => .ok (s.toList.map fun c => .text (String.singleton c))
  | .record fields => .ok ((Entries.keys fields).map .text)
  | v => .error (.notASequence v.kindName)

namespace Node

def ofJson : Nat → Value → Except Unreadable Node
  | 0, _ => .error .tooDeep
  | _ + 1, .list _ => .error .notANode
  | limit + 1, .record fields =>
    let part (name : String) : Except Unreadable Node := do ofJson limit (← field fields name)
    let optionalPart (name : String) : Except Unreadable Node := ofJson limit (optionalField fields name)
    if Entries.get? "__type__" fields = some (.text "Token") then (Token.ofFields fields).map .token
    else match optionalField fields "type" with
      | .text "Literal" => (literalOfJson (optionalField fields "value")).map .literal
      | .text "Grouping" => return .grouping (← part "expression")
      | .text "Unary" => return .unary (← part "operator") (← part "right")
      | .text "Binary" => return .binary (← part "left") (← part "operator") (← part "right")
      | .text "Logical" => return .logical (← part "left") (← part "operator") (← part "right")
      | .text "Variable" => return .variable (← part "name")
      | .text "Assign" => return .assign (← part "name") (← part "value")
      | .text "Expression" => return .expression (← part "expression")
      | .text "Print" => return .print (← part "expression")
      | .text "Var" => return .var (← part "name") (← optionalPart "initializer")
      | .text "Block" => return .block (← (← itemsOfJson (← field fields "statements")).mapM (ofJson limit))
      | .text "If" =>
        return .branch (← part "condition") (← part "then_branch") (← optionalPart "else_branch")
      | .text "While" => return .loop (← part "condition") (← part "body")
      | type => .error (.unknownType type)
  | _ + 1, v => .ok (.data v)

def read (v : Value) : Except Unreadable Node :=
  ofJson depthLimit v

def readProgram : Value → Except Unreadable (List Node)
  | .record fields => do
    if Entries.get? "type" fields = some (.text "Program") then
      (← itemsOfJson (← field fields "body")).mapM read
    else .error .notAProgram
  | _ => .error .notAProgram

end Node

end Lox
