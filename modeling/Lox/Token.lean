import Lox.Value

namespace Lox

inductive Kind where
  | leftParen | rightParen | leftBrace | rightBrace | comma | dot | minus | plus | semicolon | slash | star
  | bang | bangEqual | equal | equalEqual | greater | greaterEqual | less | lessEqual
  | identifier | string | number
  | andWord | classWord | elseWord | falseWord | forWord | funWord | ifWord | nilWord | orWord | printWord
  | returnWord | superWord | thisWord | trueWord | varWord | whileWord
  | eof
  deriving DecidableEq, Inhabited

namespace Kind

def all : List Kind :=
  [.leftParen, .rightParen, .leftBrace, .rightBrace, .comma, .dot, .minus, .plus, .semicolon, .slash, .star,
    .bang, .bangEqual, .equal, .equalEqual, .greater, .greaterEqual, .less, .lessEqual,
    .identifier, .string, .number,
    .andWord, .classWord, .elseWord, .falseWord, .forWord, .funWord, .ifWord, .nilWord, .orWord, .printWord,
    .returnWord, .superWord, .thisWord, .trueWord, .varWord, .whileWord, .eof]

def name : Kind → String
  | .leftParen => "LEFT_PAREN"
  | .rightParen => "RIGHT_PAREN"
  | .leftBrace => "LEFT_BRACE"
  | .rightBrace => "RIGHT_BRACE"
  | .comma => "COMMA"
  | .dot => "DOT"
  | .minus => "MINUS"
  | .plus => "PLUS"
  | .semicolon => "SEMICOLON"
  | .slash => "SLASH"
  | .star => "STAR"
  | .bang => "BANG"
  | .bangEqual => "BANG_EQUAL"
  | .equal => "EQUAL"
  | .equalEqual => "EQUAL_EQUAL"
  | .greater => "GREATER"
  | .greaterEqual => "GREATER_EQUAL"
  | .less => "LESS"
  | .lessEqual => "LESS_EQUAL"
  | .identifier => "IDENTIFIER"
  | .string => "STRING"
  | .number => "NUMBER"
  | .andWord => "AND"
  | .classWord => "CLASS"
  | .elseWord => "ELSE"
  | .falseWord => "FALSE"
  | .funWord => "FUN"
  | .forWord => "FOR"
  | .ifWord => "IF"
  | .nilWord => "NIL"
  | .orWord => "OR"
  | .printWord => "PRINT"
  | .returnWord => "RETURN"
  | .superWord => "SUPER"
  | .thisWord => "THIS"
  | .trueWord => "TRUE"
  | .varWord => "VAR"
  | .whileWord => "WHILE"
  | .eof => "EOF"

def ofName? (s : String) : Option Kind :=
  all.find? (·.name == s)

@[simp] theorem ofName?_name (k : Kind) : ofName? k.name = some k := by
  cases k <;> decide

def keywords : List (String × Kind) :=
  [("and", .andWord), ("class", .classWord), ("else", .elseWord), ("false", .falseWord), ("for", .forWord), ("fun", .funWord),
    ("if", .ifWord), ("nil", .nilWord), ("or", .orWord), ("print", .printWord), ("return", .returnWord), ("super", .superWord),
    ("this", .thisWord), ("true", .trueWord), ("var", .varWord), ("while", .whileWord)]

def ofWord (s : String) : Kind :=
  (keywords.lookup s).getD .identifier

def startsStatement : Kind → Bool
  | .classWord | .forWord | .funWord | .ifWord | .printWord | .returnWord | .varWord | .whileWord => true
  | _ => false

end Kind

structure Level where
  operators : List Kind
  logical : Bool
  deriving DecidableEq, Inhabited

/-- The lexeme of a token cut from a text is a text; one read from JSON may be any value. -/
structure Token where
  kind : Kind
  lexeme : Value
  literal : Value
  line : Int
  deriving DecidableEq, Inhabited

end Lox
