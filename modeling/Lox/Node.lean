import Lox.Part

/-!
Nodes: the trees that programs are read into. A tree from JSON may hold any node at any place, so parts
are nodes throughout; `.data .nil` stands for an absent initializer or else branch.
-/
namespace Lox

inductive Node where
  | data (v : Value)
  | token (t : Token)
  | literal (v : Value)
  | grouping (inner : Node)
  | unary (operator right : Node)
  | binary (left operator right : Node)
  | logical (left operator right : Node)
  | variable (name : Node)
  | assign (name value : Node)
  | expression (inner : Node)
  | print (inner : Node)
  | var (name initializer : Node)
  | block (statements : List Node)
  | branch (condition thenBranch elseBranch : Node)
  | loop (condition body : Node)
  deriving Inhabited

namespace Node

def absent : Node := .data .nil

mutual

def same : Node → Node → Bool
  | .data a, .data b => decide (a = b)
  | .token a, .token b => decide (a = b)
  | .literal a, .literal b => decide (a = b)
  | .grouping a, .grouping b => a.same b
  | .unary o a, .unary p b => o.same p && a.same b
  | .binary a o c, .binary b p d => a.same b && o.same p && c.same d
  | .logical a o c, .logical b p d => a.same b && o.same p && c.same d
  | .variable a, .variable b => a.same b
  | .assign n a, .assign m b => n.same m && a.same b
  | .expression a, .expression b => a.same b
  | .print a, .print b => a.same b
  | .var n a, .var m b => n.same m && a.same b
  | .block as, .block bs => sameAll as bs
  | .branch c a e, .branch d b f => c.same d && a.same b && e.same f
  | .loop c a, .loop d b => c.same d && a.same b
  | _, _ => false

def sameAll : List Node → List Node → Bool
  | [], [] => true
  | a :: as, b :: bs => a.same b && sameAll as bs
  | _, _ => false

end

mutual

theorem same_iff_eq : ∀ a b : Node, a.same b = true ↔ a = b
  | .data _, b | .token _, b | .literal _, b => by cases b <;> simp [same]
  | .grouping a, b => by cases b <;> simp [same, same_iff_eq a]
  | .unary o a, b => by cases b <;> simp [same, same_iff_eq o, same_iff_eq a]
  | .binary a o c, b => by cases b <;> simp [same, same_iff_eq a, same_iff_eq o, same_iff_eq c, and_assoc]
  | .logical a o c, b => by cases b <;> simp [same, same_iff_eq a, same_iff_eq o, same_iff_eq c, and_assoc]
  | .variable a, b => by cases b <;> simp [same, same_iff_eq a]
  | .assign n a, b => by cases b <;> simp [same, same_iff_eq n, same_iff_eq a]
  | .expression a, b => by cases b <;> simp [same, same_iff_eq a]
  | .print a, b => by cases b <;> simp [same, same_iff_eq a]
  | .var n a, b => by cases b <;> simp [same, same_iff_eq n, same_iff_eq a]
  | .block as, b => by cases b <;> simp [same, sameAll_iff_eq as]
  | .branch c a e, b => by cases b <;> simp [same, same_iff_eq c, same_iff_eq a, same_iff_eq e, and_assoc]
  | .loop c a, b => by cases b <;> simp [same, same_iff_eq c, same_iff_eq a]

theorem sameAll_iff_eq : ∀ as bs : List Node, sameAll as bs = true ↔ as = bs
  | [], bs => by cases bs <;> simp [sameAll]
  | a :: as, bs => by cases bs <;> simp [sameAll, same_iff_eq a, sameAll_iff_eq as]

end

instance : DecidableEq Node := fun a b => decidable_of_iff _ (same_iff_eq a b)

def kindName : Node → String
  | .data v => v.kindName
  | .token _ => "Token"
  | .literal _ => "Literal"
  | .grouping _ => "Grouping"
  | .unary _ _ => "Unary"
  | .binary _ _ _ => "Binary"
  | .logical _ _ _ => "Logical"
  | .variable _ => "Variable"
  | .assign _ _ => "Assign"
  | .expression _ => "Expression"
  | .print _ => "Print"
  | .var _ _ => "Var"
  | .block _ => "Block"
  | .branch _ _ _ => "If"
  | .loop _ _ => "While"

/-- A `for` loop: its initializer and a `while` loop in a block, with the increment behind the body. -/
def forLoop (initializer condition increment : Option Node) (body : Node) : Node :=
  let body := match increment with
    | some e => .block [body, .expression e]
    | none => body
  let loop := Node.loop (condition.getD (.literal (.bool true))) body
  match initializer with
  | some s => .block [s, loop]
  | none => loop

mutual

def part : Node → Part
  | .data v => .ofValue v
  | .token t => .token t
  | .literal v => .node [.ofValue v]
  | .grouping e | .variable e | .expression e | .print e => .node [e.part]
  | .unary a b | .assign a b | .var a b | .loop a b => .node [a.part, b.part]
  | .binary a b c | .logical a b c | .branch a b c => .node [a.part, b.part, c.part]
  | .block ss => .node [.sequence (partAll ss)]

def partAll : List Node → List Part
  | [] => []
  | n :: ns => n.part :: partAll ns

end

def firstToken (n : Node) : Token :=
  n.part.firstToken

end Node

end Lox
