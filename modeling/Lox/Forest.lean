import Lox.Scope

namespace Lox

structure Tract where
  enclosing : Option Nat
  scope : Scope
  deriving DecidableEq, Inhabited

abbrev Forest := Array Tract

namespace Forest

def start : Forest :=
  #[⟨none, []⟩]

def plant (f : Forest) (enclosing : Option Nat) : Forest :=
  f.push ⟨enclosing, []⟩

/-- The scope with the given number and those around it, from the inside out. As a scope is younger than
those around it, `fuel` above its number reaches them all. -/
def chainFrom (f : Forest) : Nat → Nat → List Nat
  | 0, _ => []
  | fuel + 1, i =>
    match f[i]? with
    | none => []
    | some t => i :: (t.enclosing.elim [] (chainFrom f fuel))

def chain (f : Forest) (i : Nat) : List Nat :=
  f.chainFrom f.size i

def depth (f : Forest) (i : Nat) : Nat :=
  (f.chain i).length - 1

def scope (f : Forest) (i : Nat) : Scope :=
  (f[i]?.map Tract.scope).getD []

def owner? (f : Forest) (i : Nat) (name : Name) : Option Nat :=
  (f.chain i).find? fun j => (f.scope j).has name

def define (f : Forest) (i : Nat) (name : Name) (v : Value) : Forest :=
  f.modify i fun t => { t with scope := t.scope.set name v }

def get? (f : Forest) (i : Nat) (name : Name) : Option Value := do
  (f.scope (← f.owner? i name)).get? name

def assign? (f : Forest) (i : Nat) (name : Name) (v : Value) : Option Forest := do
  return f.define (← f.owner? i name) name v

end Forest

end Lox
