import Lox.Cursor
import Lox.Scan

/-!
Reading tokens as a program from the top down, one rule for each phrase of the grammar. A declaration that
does not read is complained about and skipped, so that one pass finds every independent error. The
nesting of rules is limited by a number that goes down with every rule entered.
-/
namespace Lox.Descent

open Parse

def levels : List Level :=
  [⟨[.orWord], true⟩, ⟨[.andWord], true⟩, ⟨[.bangEqual, .equalEqual], false⟩,
    ⟨[.greater, .greaterEqual, .less, .lessEqual], false⟩, ⟨[.minus, .plus], false⟩, ⟨[.slash, .star], false⟩]

def join (level : Level) (left : Node) (operator : Token) (right : Node) : Node :=
  if level.logical then .logical left (.token operator) right else .binary left (.token operator) right

def chain (level : Level) (operand : Parse Node) : Nat → Node → Parse Node
  | 0, _ => throw .noEnd
  | turns + 1, left => do
    match ← accept? level.operators with
    | none => return left
    | some operator => do
      let right ← operand
      chain level operand turns (join level left operator right)

def primary (expression : Parse Node) : Parse Node := do
  if (← accept? [.falseWord]).isSome then return .literal (.bool false)
  if (← accept? [.trueWord]).isSome then return .literal (.bool true)
  if (← accept? [.nilWord]).isSome then return .literal .nil
  if let some t ← accept? [.number, .string] then return .literal t.literal
  if let some t ← accept? [.identifier] then return .variable (.token t)
  if (← accept? [.leftParen]).isSome then
    let inner ← expression
    let _ ← expect .rightParen .parenAfterExpression
    return .grouping inner
  fail (.missing .expression)

/-- An assignment once its target and its equals sign, the token at `index`, are read: the value stands
in for an assignment whose target is not a name. -/
def assigned (index : Nat) (equals : Token) (target value : Node) : Parse Node :=
  match target with
  | .variable name => return .assign name value
  | _ => do
    complain index equals .invalidAssignmentTarget
    return value

section

variable (turns : Nat)

mutual

def expression : Nat → Parse Node
  | 0 => throw .tooDeep
  | limit + 1 => do
    enter .expression
    assignment limit

def assignment : Nat → Parse Node
  | 0 => throw .tooDeep
  | limit + 1 => do
    let target ← operand limit levels
    let index := (← get).taken
    match ← accept? [.equal] with
    | none => return target
    | some equals => do
      let value ← assignment limit
      assigned index equals target value

def operand : Nat → List Level → Parse Node
  | 0, _ => throw .tooDeep
  | limit + 1, [] => unary limit
  | limit + 1, level :: tighter => do
    let left ← operand limit tighter
    chain level (operand limit tighter) turns left

def unary : Nat → Parse Node
  | 0 => throw .tooDeep
  | limit + 1 => do
    match ← accept? [.bang, .minus] with
    | some operator => do
      let right ← unary limit
      return .unary (.token operator) right
    | none => primary (expression limit)

end

end

def varDeclaration (expression : Parse Node) : Parse Node := do
  let name ← expect .identifier .variableName
  let initializer ← match ← accept? [.equal] with
    | some _ => expression
    | none => pure .absent
  let _ ← expect .semicolon .semicolonAfterVariable
  return .var (.token name) initializer

def expressionStatement (expression : Parse Node) : Parse Node := do
  let e ← expression
  let _ ← expect .semicolon .semicolonAfterExpression
  return .expression e

def printStatement (expression : Parse Node) : Parse Node := do
  let e ← expression
  let _ ← expect .semicolon .semicolonAfterPrint
  return .print e

def forInitializer (expression : Parse Node) : Parse (Option Node) := do
  if (← accept? [.semicolon]).isSome then return none
  if (← accept? [.varWord]).isSome then return some (← varDeclaration expression)
  return some (← expressionStatement expression)

def forClause (expression : Parse Node) (closing : Kind) (e : Expected) : Parse (Option Node) := do
  let clause ← if (← peek).kind = closing then pure none else some <$> expression
  let _ ← expect closing e
  return clause

def forStatement (expression statement : Parse Node) : Parse Node := do
  let _ ← expect .leftParen .parenAfterFor
  let initializer ← forInitializer expression
  let condition ← forClause expression .semicolon .semicolonAfterLoopCondition
  let increment ← forClause expression .rightParen .parenAfterForClauses
  let body ← statement
  return .forLoop initializer condition increment body

/-- An `else` belongs to the nearest `if`. -/
def ifStatement (expression statement : Parse Node) : Parse Node := do
  let _ ← expect .leftParen .parenAfterIf
  let condition ← expression
  let _ ← expect .rightParen .parenAfterIfCondition
  let thenBranch ← statement
  let elseBranch ← match ← accept? [.elseWord] with
    | some _ => statement
    | none => pure .absent
  return .branch condition thenBranch elseBranch

def whileStatement (expression statement : Parse Node) : Parse Node := do
  let _ ← expect .leftParen .parenAfterWhile
  let condition ← expression
  let _ ← expect .rightParen .parenAfterWhileCondition
  let body ← statement
  return .loop condition body

section

variable (turns : Nat)

def block (declaration : Parse (Option Node)) : Parse Node := do
  let statements ← untilKind [.rightBrace, .eof] declaration turns []
  let _ ← expect .rightBrace .braceAfterBlock
  return .block statements

mutual

def statement : Nat → Parse Node
  | 0 => throw .tooDeep
  | limit + 1 => do
    enter .statement
    if (← accept? [.forWord]).isSome then
      return ← forStatement (expression turns limit) (statement limit)
    if (← accept? [.ifWord]).isSome then
      return ← ifStatement (expression turns limit) (statement limit)
    if (← accept? [.printWord]).isSome then
      return ← printStatement (expression turns limit)
    if (← accept? [.whileWord]).isSome then
      return ← whileStatement (expression turns limit) (statement limit)
    if (← accept? [.leftBrace]).isSome then
      return ← block turns (declaration limit)
    expressionStatement (expression turns limit)

def declaration : Nat → Parse (Option Node)
  | 0 => throw .tooDeep
  | limit + 1 => do
    enter .declaration
    recover do
      if (← accept? [.varWord]).isSome then
        return ← varDeclaration (expression turns limit)
      statement limit

end

end

def depthLimit : Nat := 990

def program (limit : Nat) (tokens : List Token) : EStateM.Result Halt Cursor (List Node) :=
  untilKind [.eof] (declaration tokens.length limit) tokens.length [] (Cursor.start tokens)

end Lox.Descent
