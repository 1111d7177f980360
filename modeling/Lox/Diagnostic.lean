import Lox.Operation

namespace Lox

inductive Expected where
  | expression
  | variableName
  | semicolonAfterVariable
  | parenAfterFor
  | semicolonAfterLoopCondition
  | parenAfterForClauses
  | parenAfterIf
  | parenAfterIfCondition
  | semicolonAfterPrint
  | parenAfterWhile
  | parenAfterWhileCondition
  | braceAfterBlock
  | semicolonAfterExpression
  | parenAfterExpression
  deriving DecidableEq, Inhabited

def Expected.message : Expected → String
  | .expression => "Expect expression."
  | .variableName => "Expect variable name."
  | .semicolonAfterVariable => "Expect ';' after variable declaration."
  | .parenAfterFor => "Expect '(' after 'for'."
  | .semicolonAfterLoopCondition => "Expect ';' after loop condition."
  | .parenAfterForClauses => "Expect ')' after for clauses."
  | .parenAfterIf => "Expect '(' after 'if'."
  | .parenAfterIfCondition => "Expect ')' after if condition."
  | .semicolonAfterPrint => "Expect ';' after print."
  | .parenAfterWhile => "Expect '(' after 'while'."
  | .parenAfterWhileCondition => "Expect ')' after condition."
  | .braceAfterBlock => "Expect '\x7d' after block."
  | .semicolonAfterExpression => "Expect ';' after expression."
  | .parenAfterExpression => "Expect ')' after expression."

inductive Problem where
  | unexpectedCharacter (c : Char)
  | unterminatedString
  | unexpectedToken
  | missing (e : Expected)
  | invalidAssignmentTarget
  | nestingTooDeep
  deriving DecidableEq, Inhabited

def Problem.message : Problem → String
  | .unexpectedCharacter c => "Unexpected character: " ++ String.singleton c
  | .unterminatedString => "Unterminated string."
  | .unexpectedToken => "Unexpected token."
  | .missing e => e.message
  | .invalidAssignmentTarget => "Invalid assignment target."
  | .nestingTooDeep => "Expression nesting too deep."

inductive Place where
  | unnamed
  | atEnd
  | atLexeme (lexeme : String)
  deriving DecidableEq, Inhabited

def Place.text : Place → String
  | .unnamed => ""
  | .atEnd => " at end"
  | .atLexeme s => " at '" ++ s ++ "'"

structure Diagnostic where
  line : Int
  place : Place
  problem : Problem
  deriving DecidableEq, Inhabited

namespace Diagnostic

def message (d : Diagnostic) : String :=
  d.problem.message

def text (d : Diagnostic) : String :=
  "[line " ++ toString d.line ++ "] Error" ++ d.place.text ++ ": " ++ d.message

def lines (ds : List Diagnostic) : String :=
  String.join (ds.map fun d => d.text ++ "\n")

end Diagnostic

def Token.place (t : Token) : Place :=
  if t.kind = .eof then .atEnd else .atLexeme t.lexeme.described

def Token.diagnostic (t : Token) (p : Problem) : Diagnostic :=
  ⟨t.line, t.place, p⟩

structure Reporter where
  diagnostics : Array Diagnostic
  runtimeErrors : Array RuntimeError
  text : String
  deriving DecidableEq, Inhabited

namespace Reporter

def start : Reporter :=
  ⟨#[], #[], ""⟩

def syntaxError (r : Reporter) (d : Diagnostic) : Reporter :=
  { r with diagnostics := r.diagnostics.push d, text := r.text ++ (d.text ++ "\n") }

def runtimeError (r : Reporter) (e : RuntimeError) : Reporter :=
  { r with runtimeErrors := r.runtimeErrors.push e, text := r.text ++ (e.text ++ "\n") }

end Reporter

end Lox
