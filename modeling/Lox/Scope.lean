import Lox.Entries
import Lox.Number
import Lox.Token

namespace Lox

inductive Name where
  | text (s : String)
  | nil
  | whole (i : Int)
  | number (x : Float)
  deriving DecidableEq, Inhabited

namespace Name

def ofNumber (x : Float) : Name :=
  match Number.anatomy x with
  | .finite d => d.toInt?.elim (.number x) .whole
  | _ => .number x

def ofValue? : Value → Option Name
  | .text s => some (.text s)
  | .nil => some .nil
  | .bool b => some (.whole (if b then 1 else 0))
  | .whole i => some (.whole i)
  | .number x => some (ofNumber x)
  | .list _ | .record _ => none

end Name

def Token.name? (t : Token) : Option Name :=
  Name.ofValue? t.lexeme

abbrev Scope := Entries Name Value

/-- The scopes around a statement; the innermost of the local ones comes first. -/
structure Env where
  locals : List Scope
  globals : Scope
  deriving DecidableEq, Inhabited

namespace Env

def start (globals : Scope) : Env :=
  ⟨[], globals⟩

def depth (env : Env) : Nat :=
  env.locals.length

def enter (env : Env) : Env :=
  { env with locals := [] :: env.locals }

def leave (env : Env) : Env :=
  { env with locals := env.locals.tail }

def define (name : Name) (v : Value) : Env → Env
  | ⟨[], globals⟩ => ⟨[], globals.set name v⟩
  | ⟨scope :: scopes, globals⟩ => ⟨scope.set name v :: scopes, globals⟩

def get? (name : Name) (env : Env) : Option Value :=
  (env.locals.findSome? (Entries.get? name)).or (env.globals.get? name)

def assignFirst? (name : Name) (v : Value) : List Scope → Option (List Scope)
  | [] => none
  | scope :: scopes =>
    if scope.has name then some (scope.set name v :: scopes)
    else (assignFirst? name v scopes).map (scope :: ·)

def assign? (name : Name) (v : Value) (env : Env) : Option Env :=
  match assignFirst? name v env.locals with
  | some locals => some { env with locals := locals }
  | none => if env.globals.has name then some { env with globals := env.globals.set name v } else none

@[simp] theorem depth_enter (env : Env) : env.enter.depth = env.depth + 1 := rfl

@[simp] theorem leave_enter (env : Env) : env.enter.leave = env := rfl

@[simp] theorem depth_define (name : Name) (v : Value) (env : Env) :
    (env.define name v).depth = env.depth := by
  obtain ⟨locals, globals⟩ := env
  cases locals <;> rfl

@[simp] theorem get?_define_self (name : Name) (v : Value) (env : Env) :
    (env.define name v).get? name = some v := by
  obtain ⟨locals, globals⟩ := env
  cases locals <;> simp [define, get?]

theorem get?_define_of_ne {name other : Name} (h : other ≠ name) (v : Value) (env : Env) :
    (env.define name v).get? other = env.get? other := by
  obtain ⟨locals, globals⟩ := env
  cases locals <;> simp [define, get?, List.findSome?_cons, Entries.get?_set_of_ne h]

end Env

end Lox
