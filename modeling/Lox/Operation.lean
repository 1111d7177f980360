import Lox.Entries
import Lox.Token
import Lox.Value.Text

namespace Lox

inductive Fault where
  | operandNotNumber
  | operandsNotNumbers
  | operandsNotAddable
  | undefinedVariable (name : String)
  | unknownUnary (lexeme : String)
  | unknownBinary (lexeme : String)
  | nestingTooDeep
  deriving DecidableEq, Inhabited

def Fault.message : Fault → String
  | .operandNotNumber => "Operand must be a number."
  | .operandsNotNumbers => "Operands must be numbers."
  | .operandsNotAddable => "Operands must be two numbers or two strings."
  | .undefinedVariable name => "Undefined variable '" ++ name ++ "'."
  | .unknownUnary lexeme => "Unknown unary operator '" ++ lexeme ++ "'."
  | .unknownBinary lexeme => "Unknown operator '" ++ lexeme ++ "'."
  | .nestingTooDeep => "Nesting too deep to evaluate."

structure RuntimeError where
  token : Token
  fault : Fault
  deriving DecidableEq, Inhabited

namespace RuntimeError

def message (e : RuntimeError) : String :=
  e.fault.message

def text (e : RuntimeError) : String :=
  e.message ++ "\n[line " ++ toString e.token.line ++ "]"

end RuntimeError

def Token.spelling (t : Token) : String :=
  t.lexeme.described

def nan : Float := Float.ofBits 0x7FF8000000000000

def isNegative (x : Float) : Bool :=
  x.toBits ≥ 0x8000000000000000

def quotient? (x y : Float) : Option Float :=
  if y == 0.0 then none else some (x / y)

/-- Division where a zero divisor is settled before any number is divided. -/
def divide? (x y : Float) : Option Float :=
  if y == 0.0 then
    if x == 0.0 || x != x then some nan
    else if isNegative x == isNegative y then some Number.infinity
    else some (-Number.infinity)
  else quotient? x y

def divide (x y : Float) : Float :=
  (divide? x y).getD nan

theorem divide?_eq_some (x y : Float) : divide? x y = some (divide x y) := by
  unfold divide divide?
  by_cases hy : (y == 0.0) = true
  · rw [if_pos hy]
    split
    · rfl
    · split <;> rfl
  · rw [if_neg hy, quotient?, if_neg hy, Option.getD_some]

namespace Value

def count? : Value → Option Int
  | .bool b => some (if b then 1 else 0)
  | .whole i => some i
  | _ => none

def isWhole (x : Float) (i : Int) : Bool :=
  match Number.anatomy x with
  | .finite d => d.toInt? == some i
  | _ => false

def sameSize? : Value → Value → Option Bool
  | .number x, .number y => some (x == y || (x != x && y != y))
  | .number x, b => b.count?.map (isWhole x)
  | a, .number y => a.count?.map (isWhole y)
  | a, b => do return (← a.count?) == (← b.count?)

mutual

def agrees : Value → Value → Bool
  | .nil, .nil => true
  | .text a, .text b => a == b
  | .list as, .list bs => itemsAgree as bs
  | .record as, .record bs => as.length == bs.length && fieldsAgree as bs
  | a, b => (sameSize? a b).getD false

def itemsAgree : List Value → List Value → Bool
  | [], [] => true
  | a :: as, b :: bs => a.agrees b && itemsAgree as bs
  | _, _ => false

def fieldsAgree : List (String × Value) → List (String × Value) → Bool
  | [], _ => true
  | (k, a) :: as, bs => (Entries.get? k bs).any a.agrees && fieldsAgree as bs

end

/-- Equality in programs: values of different types differ, and numbers are compared by size. -/
def equal : Value → Value → Bool
  | .nil, .nil => true
  | .bool a, .bool b => a == b
  | .whole a, .whole b => a == b
  | .number x, .number y => x == y
  | .text a, .text b => a == b
  | .list as, .list bs => (Value.list as).agrees (.list bs)
  | .record as, .record bs => (Value.record as).agrees (.record bs)
  | _, _ => false

end Value

namespace Operation

def onNumbers (f : Float → Float → Value) : Value → Value → Except Fault Value
  | .number x, .number y => .ok (f x y)
  | _, _ => .error .operandsNotNumbers

def add : Value → Value → Except Fault Value
  | .number x, .number y => .ok (.number (x + y))
  | .text a, .text b => .ok (.text (a ++ b))
  | _, _ => .error .operandsNotAddable

def negate : Value → Except Fault Value
  | .number x => .ok (.number (-x))
  | _ => .error .operandNotNumber

def binary (operator : Token) (left right : Value) : Except Fault Value :=
  match operator.kind with
  | .plus => add left right
  | .minus => onNumbers (fun x y => .number (x - y)) left right
  | .star => onNumbers (fun x y => .number (x * y)) left right
  | .slash => onNumbers (fun x y => .number (divide x y)) left right
  | .greater => onNumbers (fun x y => .bool (y < x)) left right
  | .greaterEqual => onNumbers (fun x y => .bool (y ≤ x)) left right
  | .less => onNumbers (fun x y => .bool (x < y)) left right
  | .lessEqual => onNumbers (fun x y => .bool (x ≤ y)) left right
  | .equalEqual => .ok (.bool (left.equal right))
  | .bangEqual => .ok (.bool !(left.equal right))
  | _ => .error (.unknownBinary operator.spelling)

def unary (operator : Token) (right : Value) : Except Fault Value :=
  match operator.kind with
  | .minus => negate right
  | .bang => .ok (.bool !right.truthy)
  | _ => .error (.unknownUnary operator.spelling)

def at_ (t : Token) {α : Type} (r : Except Fault α) : Except RuntimeError α :=
  r.mapError (⟨t, ·⟩)

end Operation

end Lox
