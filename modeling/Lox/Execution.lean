import Lox.Node
import Lox.Operation
import Lox.Scope

/-!
Execution: what a program prints, and what it leaves in the scopes. A run ends well, in a fault at a
token, or, for a tree that no program text gives, at a part that is not what its place asks for. The
nesting of a tree and the turns of each loop are limited by numbers.
-/
namespace Lox

structure Settings where
  verbosity : Nat
  turns : Nat
  depth : Nat
  deriving DecidableEq, Inhabited

structure Note where
  level : Nat
  text : String
  deriving DecidableEq, Inhabited

inductive Role where
  | execute
  | evaluate
  deriving DecidableEq, Inhabited

def Role.name : Role → String
  | .execute => "execute"
  | .evaluate => "evaluate"

inductive Misfit where
  | node (role : Role) (kind : String)
  | notAToken
  | notAName (kind : String)
  deriving DecidableEq, Inhabited

def Misfit.message? : Misfit → Option String
  | .node role kind => some (role.name ++ ": unexpected node type " ++ kind)
  | .notAToken => none
  | .notAName kind => some ("unhashable type: '" ++ kind ++ "'")

inductive Stop where
  | fault (e : RuntimeError)
  | misfit (m : Misfit)
  | tooDeep
  | outOfTurns
  deriving DecidableEq, Inhabited

structure Machine where
  env : Env
  printed : Array String
  notes : Array Note
  deriving DecidableEq, Inhabited

abbrev Run := EStateM Stop Machine

namespace Run

def note (s : Settings) (level : Nat) (text : Unit → String) : Run Unit := fun m =>
  if level ≤ s.verbosity then .ok () { m with notes := m.notes.push ⟨level, text ()⟩ } else .ok () m

def print (line : String) : Run Unit := fun m =>
  .ok () { m with printed := m.printed.push line }

def ofExcept {α : Type} : Except RuntimeError α → Run α
  | .ok a => pure a
  | .error e => throw (.fault e)

def nameOf (t : Token) : Run Name :=
  match t.name? with
  | some name => pure name
  | none => throw (.misfit (.notAName t.lexeme.kindName))

def undefined {α : Type} (t : Token) : Run α :=
  throw (.fault ⟨t, .undefinedVariable t.spelling⟩)

def lookup (t : Token) : Run Value := do
  match (← get).env.get? (← nameOf t) with
  | some v => return v
  | none => undefined t

def assign (t : Token) (v : Value) : Run Unit := do
  match (← get).env.assign? (← nameOf t) v with
  | some env => modify fun m => { m with env := env }
  | none => undefined t

def define (t : Token) (v : Value) : Run Unit := do
  let name ← nameOf t
  modify fun m => { m with env := m.env.define name v }

def inScope (part : Run Unit) : Run Unit := fun m =>
  match part { m with env := m.env.enter } with
  | .ok _ m => .ok () { m with env := m.env.leave }
  | .error e m => .error e { m with env := m.env.leave }

/-- Take turns while a condition holds; the result is the number of turns, counted from `count`. -/
def repeatWhile (condition : Run Bool) (body : Run Unit) : Nat → Nat → Run Nat
  | 0, _ => throw .outOfTurns
  | turns + 1, count => do
    if ← condition then
      body
      repeatWhile condition body turns (count + 1)
    else return count

end Run

open Run

def Run.tokenOf : Node → Run Token
  | .token t => pure t
  | _ => throw (.misfit .notAToken)

def logicalShort (operator : Token) (left : Value) : Bool :=
  if operator.kind = .orWord then left.truthy else !left.truthy

section

variable (s : Settings)

def evaluate : Nat → Node → Run Value
  | 0, _ => throw .tooDeep
  | _ + 1, .literal v => return v
  | limit + 1, .grouping e => evaluate limit e
  | limit + 1, .unary operator e => do
    let right ← evaluate limit e
    let t ← tokenOf operator
    ofExcept (Operation.at_ t (Operation.unary t right))
  | limit + 1, .binary a operator b => do
    let left ← evaluate limit a
    let right ← evaluate limit b
    let t ← tokenOf operator
    ofExcept (Operation.at_ t (Operation.binary t left right))
  | limit + 1, .logical a operator b => do
    let left ← evaluate limit a
    let t ← tokenOf operator
    if logicalShort t left then return left else evaluate limit b
  | _ + 1, .variable name => do lookup (← tokenOf name)
  | limit + 1, .assign name e => do
    let v ← evaluate limit e
    let t ← tokenOf name
    assign t v
    note s 2 fun _ => "assign " ++ t.spelling ++ " = " ++ v.printed
    return v
  | _ + 1, n => throw (.misfit (.node .evaluate n.kindName))

def conditionNote (v : Value) : String :=
  "if condition " ++ v.printed ++ " -> " ++ (Value.bool v.truthy).quoted

def execute : Nat → Node → Run Unit
  | 0, _ => throw .tooDeep
  | limit + 1, .expression e => do let _ ← evaluate s limit e
  | limit + 1, .print e => do print (← evaluate s limit e).printed
  | limit + 1, .var name initializer => do
    let v ← if initializer = .absent then pure .nil else evaluate s limit initializer
    let t ← tokenOf name
    define t v
    note s 2 fun _ => "declare " ++ t.spelling ++ " = " ++ v.printed
  | limit + 1, .block statements => inScope do
    let depth := (← get).env.depth
    note s 3 fun _ => "enter block at depth " ++ toString depth
    statements.forM (execute limit)
  | limit + 1, .branch condition thenBranch elseBranch => do
    let v ← evaluate s limit condition
    note s 3 fun _ => conditionNote v
    if v.truthy then execute limit thenBranch
    else if elseBranch = .absent then return ()
    else execute limit elseBranch
  | limit + 1, .loop condition body => do
    let count ← repeatWhile (Value.truthy <$> evaluate s limit condition) (execute limit body) s.turns 0
    note s 3 fun _ => "while loop finished after " ++ toString count ++ " iterations"
  | _ + 1, n => throw (.misfit (.node .execute n.kindName))

end

inductive Ending where
  | finished
  | failed (e : RuntimeError)
  | misfit (m : Misfit)
  | outOfTurns
  deriving DecidableEq, Inhabited

def failed (s : Settings) (e : RuntimeError) (m : Machine) : Ending × Machine :=
  let text (_ : Unit) := "runtime error at line " ++ toString e.token.line ++ ": " ++ e.message
  match note s 1 text m with
  | .ok _ m | .error _ m => (.failed e, m)

/-- Run statements in turn up to the first that does not end well. A statement that is too deep counts as
a fault at its first token. -/
def interpret (s : Settings) : List Node → Machine → Ending × Machine
  | [], m => (.finished, m)
  | n :: ns, m =>
    match execute s s.depth n m with
    | .ok _ m => interpret s ns m
    | .error (.fault e) m => failed s e m
    | .error .tooDeep m => failed s ⟨n.firstToken, .nestingTooDeep⟩ m
    | .error (.misfit x) m => (.misfit x, m)
    | .error .outOfTurns m => (.outOfTurns, m)

end Lox
