import Lox.Node

namespace Lox

namespace Ascent

def logicOr : Level := ⟨[.orWord], true⟩

def logicAnd : Level := ⟨[.andWord], true⟩

def equality : Level := ⟨[.bangEqual, .equalEqual], false⟩

def comparison : Level := ⟨[.greater, .greaterEqual, .less, .lessEqual], false⟩

def term : Level := ⟨[.minus, .plus], false⟩

def factor : Level := ⟨[.slash, .star], false⟩

def levels : List Level :=
  [logicOr, logicAnd, equality, comparison, term, factor]

end Ascent

namespace Level

def find? (k : Kind) : Option Level :=
  Ascent.levels.find? fun l => k ∈ l.operators

def rank (l : Level) : Nat :=
  Ascent.levels.idxOf l

end Level

namespace Ascent

inductive Phrase where
  | absent
  | literal (v : Value)
  | variable (name : Token)
  | grouping (inner : Phrase)
  | unary (operator : Token) (right : Phrase)
  | joined (level : Level) (left : Phrase) (operator : Token) (right : Phrase)
  | assign (target : Phrase) (equals : Token) (value : Phrase)
  | expression (inner : Phrase)
  | print (inner : Phrase)
  | var (name : Token) (initializer : Phrase)
  | block (statements : List Phrase)
  | branch (condition thenBranch elseBranch : Phrase)
  | loop (condition body : Phrase)
  | forLoop (initializer condition increment body : Phrase)
  deriving Inhabited

namespace Phrase

def isAbsent : Phrase → Bool
  | .absent => true
  | _ => false

def fold (l : Level) (left : Node) (operator : Token) (right : Node) : Node :=
  match l.logical with
  | true => .logical left (.token operator) right
  | false => .binary left (.token operator) right

mutual

def node : Phrase → Node
  | .absent => .absent
  | .literal v => .literal v
  | .variable t => .variable (.token t)
  | .grouping e => .grouping e.node
  | .unary o e => .unary (.token o) e.node
  | .joined l a o b => fold l a.node o b.node
  | .assign (.variable t) _ v => .assign (.token t) v.node
  | .assign _ _ v => v.node
  | .expression e => .expression e.node
  | .print e => .print e.node
  | .var t e => .var (.token t) e.node
  | .block ss => .block (nodes ss)
  | .branch c a b => .branch c.node a.node b.node
  | .loop c b => .loop c.node b.node
  | .forLoop i c s b =>
    let clause (p : Phrase) (n : Node) : Option Node := if p.isAbsent then none else some n
    .forLoop (clause i i.node) (clause c c.node) (clause s s.node) b.node

def nodes : List Phrase → List Node
  | [] => []
  | p :: ps => p.node :: nodes ps

end

mutual

/-- The equals signs of the assignments whose target is not a name; inner ones come first, and those of
a target before those of the value. -/
def misassigned : Phrase → List Token
  | .absent | .literal _ | .variable _ => []
  | .grouping e | .unary _ e | .expression e | .print e | .var _ e => e.misassigned
  | .joined _ a _ b | .loop a b => a.misassigned ++ b.misassigned
  | .assign (.variable _) _ v => v.misassigned
  | .assign t e v => t.misassigned ++ v.misassigned ++ [e]
  | .block ss => misassignedAll ss
  | .branch c a b => c.misassigned ++ a.misassigned ++ b.misassigned
  | .forLoop i c s b => i.misassigned ++ c.misassigned ++ s.misassigned ++ b.misassigned

def misassignedAll : List Phrase → List Token
  | [] => []
  | p :: ps => p.misassigned ++ misassignedAll ps

end

def isJoined (level : Level) : Phrase → Bool
  | .joined l _ _ _ => l == level
  | _ => false

mutual

def height : Phrase → Nat
  | .absent => 0
  | .literal _ | .variable _ => 1
  | .grouping e | .unary _ e | .expression e | .print e | .var _ e => e.height + 1
  | .joined l a _ b => max (if a.isJoined l then a.height else a.height + 1) (b.height + 1)
  | .assign a _ b | .loop a b => max a.height b.height + 1
  | .block ss => heightAll ss + 1
  | .branch c a b => max c.height (max a.height b.height) + 1
  | .forLoop i c s b => max (max i.height c.height) (max s.height b.height) + 1

def heightAll : List Phrase → Nat
  | [] => 0
  | p :: ps => max p.height (heightAll ps)

end

end Phrase

end Ascent

end Lox
