import Lox.Diagnostic
import Lox.Node

/-!
The state of reading tokens as a program: the tokens not yet taken, the complaints so far, and a trace of
rules entered and tokens taken. Reading never goes past the first end token.
-/
namespace Lox

/-- A problem at a token, with the token's place in the list that is read. -/
structure Complaint where
  index : Nat
  token : Token
  problem : Problem
  deriving DecidableEq, Inhabited

def Complaint.diagnostic (c : Complaint) : Diagnostic :=
  c.token.diagnostic c.problem

inductive Rule where
  | declaration
  | statement
  | expression
  deriving DecidableEq, Inhabited

def Rule.name : Rule → String
  | .declaration => "declaration"
  | .statement => "statement"
  | .expression => "expression"

inductive Event where
  | entered (r : Rule)
  | taken (t : Token)
  deriving DecidableEq, Inhabited

structure Cursor where
  rest : List Token
  taken : Nat
  complaints : Array Complaint
  events : Array Event
  deriving DecidableEq, Inhabited

def Cursor.start (tokens : List Token) : Cursor :=
  ⟨tokens, 0, #[], #[]⟩

inductive Halt where
  | complained
  | tooDeep
  | noEnd
  deriving DecidableEq, Inhabited

abbrev Parse := EStateM Halt Cursor

namespace Parse

def peek : Parse Token := fun c =>
  match c.rest with
  | [] => .error .noEnd c
  | t :: _ => .ok t c

def enter (r : Rule) : Parse Unit := fun c =>
  .ok () { c with events := c.events.push (.entered r) }

def skip (ts rest : List Token) (c : Cursor) : Cursor :=
  { c with
    rest := rest
    taken := c.taken + ts.length
    events := c.events ++ (ts.map Event.taken).toArray }

def accept? (kinds : List Kind) : Parse (Option Token) := fun c =>
  match c.rest with
  | [] => .error .noEnd c
  | t :: rest =>
    if t.kind ≠ .eof ∧ t.kind ∈ kinds then .ok (some t) (skip [t] rest c) else .ok none c

def complain (index : Nat) (t : Token) (p : Problem) : Parse Unit := fun c =>
  .ok () { c with complaints := c.complaints.push ⟨index, t, p⟩ }

def complainHere (p : Problem) : Parse Unit := fun c =>
  match c.rest with
  | [] => .error .noEnd c
  | t :: _ => complain c.taken t p c

def fail {α : Type} (p : Problem) : Parse α := do
  complainHere p
  throw .complained

def expect (kind : Kind) (e : Expected) : Parse Token := do
  match ← accept? [kind] with
  | some t => return t
  | none => fail (.missing e)

end Parse

/-- The tokens up to the next place where a statement may begin, and those from there on: an end token,
the start of a statement, or whatever follows a semicolon. `last` is the kind of the token before. -/
def toBoundary (last : Kind) : List Token → List Token × List Token
  | [] => ([], [])
  | t :: ts =>
    if t.kind = .eof ∨ last = .semicolon ∨ t.kind.startsStatement then ([], t :: ts)
    else
      let (skipped, rest) := toBoundary t.kind ts
      (t :: skipped, rest)

theorem toBoundary_append (last : Kind) (ts : List Token) :
    (toBoundary last ts).1 ++ (toBoundary last ts).2 = ts := by
  induction ts generalizing last with
  | nil => rfl
  | cons t ts ih =>
    rw [toBoundary]
    split
    · rfl
    · exact congrArg (t :: ·) (ih t.kind)

namespace Parse

def synchronize : Parse Unit := fun c =>
  match c.rest with
  | [] => .error .noEnd c
  | t :: ts =>
    if t.kind = .eof then .ok () c
    else
      let (skipped, rest) := toBoundary t.kind ts
      let c := skip (t :: skipped) rest c
      if rest.isEmpty then .error .noEnd c else .ok () c

def recover {α : Type} (part : Parse α) : Parse (Option α) := fun c =>
  match part c with
  | .ok a c => .ok (some a) c
  | .error .complained c => (do synchronize; return none : Parse (Option α)) c
  | .error .tooDeep c => (do complainHere .nestingTooDeep; synchronize; return none : Parse (Option α)) c
  | .error .noEnd c => .error .noEnd c

/-- Parts up to a token of one of the given kinds, without those that failed; at most `turns` tries. As
every part takes a token, the tries run out only when the tokens do. -/
def untilKind {α : Type} (kinds : List Kind) (part : Parse (Option α)) : Nat → List α → Parse (List α)
  | 0, _ => throw .noEnd
  | turns + 1, before => do
    let t ← peek
    if t.kind ∈ kinds then return before.reverse
    else do
      let a? ← part
      untilKind kinds part turns (a?.toList ++ before)

end Parse

section

variable {ε σ α β : Type}

theorem bind_apply (x : EStateM ε σ α) (f : α → EStateM ε σ β) (c : σ) :
    (x >>= f) c = match x c with
      | .ok a c => f a c
      | .error e c => .error e c := by
  show EStateM.bind x f c = _
  unfold EStateM.bind
  cases x c <;> rfl

theorem bind_eq_ok {x : EStateM ε σ α} {f : α → EStateM ε σ β} {c c' : σ} {b : β} :
    (x >>= f) c = .ok b c' ↔ ∃ a d, x c = .ok a d ∧ f a d = .ok b c' := by
  rw [bind_apply]
  cases x c <;> simp [and_assoc]

theorem bind_eq_error {x : EStateM ε σ α} {f : α → EStateM ε σ β} {c c' : σ} {e : ε} :
    (x >>= f) c = .error e c' ↔ x c = .error e c' ∨ ∃ a d, x c = .ok a d ∧ f a d = .error e c' := by
  rw [bind_apply]
  cases x c <;> simp [and_assoc]

theorem except_bind_eq_ok {x : Except ε α} {f : α → Except ε β} {b : β} :
    (x >>= f) = .ok b ↔ ∃ a, x = .ok a ∧ f a = .ok b := by
  cases x <;> simp [bind, Except.bind]

theorem except_map_eq_ok {x : Except ε α} {f : α → β} {b : β} : x.map f = .ok b ↔ ∃ a, x = .ok a ∧ f a = b := by
  cases x <;> simp [Except.map]

def final : EStateM.Result ε σ α → σ
  | .ok _ c | .error _ c => c

end

end Lox
