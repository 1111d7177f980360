import Lox.Ascent.Phrase

/-!
Configurations of reading from the bottom up: the statements that are still open, what is expected next,
and the phrases read so far. One token at a time either leads to the next configuration or does not fit.
-/
namespace Lox.Ascent

inductive Pending where
  | group
  | unary (operator : Token)
  | binary (level : Level) (left : Phrase) (operator : Token)
  | assign (target : Phrase) (equals : Token)
  deriving Inhabited

inductive Clause where
  | expression
  | print
  | var (name : Token)
  | ifCondition
  | whileCondition
  | forCondition (initializer : Phrase)
  | forIncrement (initializer condition : Phrase)
  deriving Inhabited

inductive Frame where
  | block (before : List Phrase)
  | thenBranch (condition : Phrase)
  | elseBranch (condition thenBranch : Phrase)
  | whileBody (condition : Phrase)
  | forInitializer
  | forBody (initializer condition increment : Phrase)
  deriving Inhabited

inductive Phase where
  | declaration
  | statement
  | name
  | named (name : Token)
  | parenOfIf
  | parenOfWhile
  | parenOfFor
  | forInitializer
  | forCondition (initializer : Phrase)
  | forIncrement (initializer condition : Phrase)
  | operand (clause : Clause) (pending : List Pending)
  | operator (clause : Clause) (pending : List Pending) (operand : Phrase)
  | possibleElse (condition thenBranch : Phrase)
  deriving Inhabited

structure Config where
  phase : Phase
  frames : List Frame
  done : List Phrase
  deriving Inhabited

namespace Config

def start : Config :=
  ⟨.declaration, [], []⟩

/-- Put a statement that has been read into the open statements. Unless `mayElse`, an `if` without an
`else` is complete too. -/
def complete (mayElse : Bool) (done : List Phrase) : Phrase → List Frame → Config
  | s, [] => ⟨.declaration, [], s :: done⟩
  | s, .block before :: frames => ⟨.declaration, .block (s :: before) :: frames, done⟩
  | s, .thenBranch c :: frames =>
    if mayElse then ⟨.possibleElse c s, frames, done⟩ else complete mayElse done (.branch c s .absent) frames
  | s, .elseBranch c t :: frames => complete mayElse done (.branch c t s) frames
  | s, .whileBody c :: frames => complete mayElse done (.loop c s) frames
  | s, .forInitializer :: frames => ⟨.forCondition s, frames, done⟩
  | s, .forBody i c e :: frames => complete mayElse done (.forLoop i c e s) frames

/-- Give an operand to the operators before it that bind at least as tightly as the given rank. -/
def reduce (rank : Nat) : Phrase → List Pending → Phrase × List Pending
  | e, .unary o :: pending => reduce rank (.unary o e) pending
  | e, .binary l a o :: pending =>
    if rank ≤ l.rank then reduce rank (.joined l a o e) pending else (e, .binary l a o :: pending)
  | e, pending => (e, pending)

def reduceAll : Phrase → List Pending → Phrase × List Pending
  | e, .unary o :: pending => reduceAll (.unary o e) pending
  | e, .binary l a o :: pending => reduceAll (.joined l a o e) pending
  | e, .assign t o :: pending => reduceAll (.assign t o e) pending
  | e, .group :: pending => (e, .group :: pending)
  | e, [] => (e, [])

def stepOperand (c : Config) (clause : Clause) (pending : List Pending) (t : Token) : Option Config :=
  let read (e : Phrase) : Option Config := some { c with phase := .operator clause pending e }
  match t.kind with
  | .number | .string => read (.literal t.literal)
  | .trueWord => read (.literal (.bool true))
  | .falseWord => read (.literal (.bool false))
  | .nilWord => read (.literal .nil)
  | .identifier => read (.variable t)
  | .leftParen => some { c with phase := .operand clause (.group :: pending) }
  | .bang | .minus => some { c with phase := .operand clause (.unary t :: pending) }
  | _ => none

def close (c : Config) (clause : Clause) (e : Phrase) (t : Token) : Option Config :=
  match clause, t.kind with
  | .expression, .semicolon => some (complete true c.done (.expression e) c.frames)
  | .print, .semicolon => some (complete true c.done (.print e) c.frames)
  | .var name, .semicolon => some (complete true c.done (.var name e) c.frames)
  | .ifCondition, .rightParen => some ⟨.statement, .thenBranch e :: c.frames, c.done⟩
  | .whileCondition, .rightParen => some ⟨.statement, .whileBody e :: c.frames, c.done⟩
  | .forCondition i, .semicolon => some { c with phase := .forIncrement i e }
  | .forIncrement i s, .rightParen => some ⟨.statement, .forBody i s e :: c.frames, c.done⟩
  | _, _ => none

def stepOperator (c : Config) (clause : Clause) (pending : List Pending) (e : Phrase) (t : Token) :
    Option Config :=
  match Level.find? t.kind with
  | some level =>
    let (left, pending) := reduce level.rank e pending
    some { c with phase := .operand clause (.binary level left t :: pending) }
  | none =>
    if t.kind = .equal then
      let (target, pending) := reduce 0 e pending
      some { c with phase := .operand clause (.assign target t :: pending) }
    else
      match reduceAll e pending with
      | (e, .group :: pending) =>
        if t.kind = .rightParen then some { c with phase := .operator clause pending (.grouping e) } else none
      | (e, _) => c.close clause e t

def stepStatement (c : Config) (t : Token) : Option Config :=
  match t.kind with
  | .printWord => some { c with phase := .operand .print [] }
  | .leftBrace => some { c with phase := .declaration, frames := .block [] :: c.frames }
  | .ifWord => some { c with phase := .parenOfIf }
  | .whileWord => some { c with phase := .parenOfWhile }
  | .forWord => some { c with phase := .parenOfFor }
  | _ => c.stepOperand .expression [] t

def stepDeclaration (c : Config) (t : Token) : Option Config :=
  match t.kind, c.frames with
  | .varWord, _ => some { c with phase := .name }
  | .rightBrace, .block before :: frames => some (complete true c.done (.block before.reverse) frames)
  | _, _ => c.stepStatement t

def stepParen (c : Config) (next : Phase) (t : Token) : Option Config :=
  if t.kind = .leftParen then some { c with phase := next } else none

def withoutElse (c : Config) : Config :=
  match c.phase with
  | .possibleElse condition thenBranch =>
    complete false c.done (.branch condition thenBranch .absent) c.frames
  | _ => c

def step (c : Config) (t : Token) : Option Config :=
  match c.phase with
  | .declaration => c.stepDeclaration t
  | .statement => c.stepStatement t
  | .name => if t.kind = .identifier then some { c with phase := .named t } else none
  | .named name =>
    if t.kind = .equal then some { c with phase := .operand (.var name) [] }
    else c.close (.var name) .absent t
  | .parenOfIf => c.stepParen (.operand .ifCondition []) t
  | .parenOfWhile => c.stepParen (.operand .whileCondition []) t
  | .parenOfFor => c.stepParen .forInitializer t
  | .forInitializer =>
    match t.kind with
    | .semicolon => some { c with phase := .forCondition .absent }
    | .varWord => some { c with phase := .name, frames := .forInitializer :: c.frames }
    | _ => stepOperand { c with frames := .forInitializer :: c.frames } .expression [] t
  | .forCondition i =>
    if t.kind = .semicolon then c.close (.forCondition i) .absent t
    else c.stepOperand (.forCondition i) [] t
  | .forIncrement i s =>
    if t.kind = .rightParen then c.close (.forIncrement i s) .absent t
    else c.stepOperand (.forIncrement i s) [] t
  | .operand clause pending => c.stepOperand clause pending t
  | .operator clause pending e => c.stepOperator clause pending e t
  | .possibleElse condition thenBranch =>
    if t.kind = .elseWord then some ⟨.statement, .elseBranch condition thenBranch :: c.frames, c.done⟩
    else c.withoutElse.stepDeclaration t

def finish? (c : Config) : Option (List Phrase) :=
  match c.withoutElse with
  | ⟨.declaration, [], done⟩ => some done.reverse
  | _ => none

end Config

end Lox.Ascent
