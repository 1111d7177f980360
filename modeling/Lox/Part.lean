import Lox.Token

namespace Lox

inductive Part where
  | value (v : Value)
  | token (t : Token)
  | sequence (items : List Part)
  | node (fields : List Part)
  deriving Inhabited

namespace Part

mutual

def ofValue : Value → Part
  | .list items => .sequence (ofItems items)
  | v => .value v

def ofItems : List Value → List Part
  | [] => []
  | v :: vs => ofValue v :: ofItems vs

end

def token? : Part → Option Token
  | .token t => some t
  | _ => none

def parts : Part → List Part
  | .value _ | .token _ => []
  | .sequence ps | .node ps => ps

mutual

def size : Part → Nat
  | .value _ | .token _ => 1
  | .sequence ps | .node ps => 1 + sizes ps

def sizes : List Part → Nat
  | [] => 0
  | p :: ps => p.size + sizes ps

end

theorem size_eq (p : Part) : p.size = 1 + sizes p.parts := by
  cases p <;> rfl

theorem sizes_append (ps queue : List Part) : sizes (ps ++ queue) = sizes ps + sizes queue := by
  induction ps with
  | nil => simp [sizes]
  | cons p ps ih => simp only [List.cons_append, sizes, ih, Nat.add_assoc]

/-- The first token met when the parts of a queue are visited in turn, each putting its own parts at the
end of the queue. -/
def firstTokenIn? : List Part → Option Token
  | [] => none
  | p :: queue =>
    match p.token? with
    | some t => some t
    | none => firstTokenIn? (queue ++ p.parts)
termination_by queue => sizes queue
decreasing_by
  rw [sizes_append, sizes, size_eq]
  omega

/-- The outermost token of a tree, and of those the leftmost; an end token on line 0 when there is none. -/
def firstToken (p : Part) : Token :=
  (firstTokenIn? [p]).getD ⟨.eof, .text "", .nil, 0⟩

end Part

end Lox
