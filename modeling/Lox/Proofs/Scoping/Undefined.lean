import Lox.Proofs.Scoping.Faults

namespace Lox

open Run

def Undefined {α : Type} (t : Token) (r : EStateM.Result Stop Machine α) : Prop :=
  ∃ text m, r = .error (.fault ⟨t, .undefinedVariable text⟩) m

namespace Operation

theorem unary_ne_undefined (t : Token) (v : Value) (text : String) : unary t v ≠ .error (.undefinedVariable text) := by
  unfold unary negate
  split
  · split <;> simp
  · simp
  · simp

theorem onNumbers_ne_undefined (f : Float → Float → Value) (a b : Value) (text : String) :
    onNumbers f a b ≠ .error (.undefinedVariable text) := by
  unfold onNumbers
  split <;> simp

theorem binary_ne_undefined (t : Token) (a b : Value) (text : String) :
    binary t a b ≠ .error (.undefinedVariable text) := by
  unfold binary
  split
  · unfold add
    split <;> simp
  all_goals first | exact onNumbers_ne_undefined _ a b text | simp

end Operation

section

variable {s : Settings} {limit : Nat} {t : Token} {m : Machine}

def Task.Undefined (s : Settings) (limit : Nat) (t : Token) (m : Machine) : Task → Prop
  | .execute n => Lox.Undefined t (Lox.execute s limit n m)
  | .evaluate n => Lox.Undefined t (Lox.evaluate s limit n m)

inductive Task.Names (s : Settings) (limit : Nat) (t : Token) (m : Machine) : Task → Prop
  | read : Names s limit t m (.evaluate (.variable (.token t)))
  | assigned {e v m₁} : Lox.evaluate s limit e m = .ok v m₁ → Names s limit t m (.evaluate (.assign (.token t) e))

theorem Task.undefined_iff {task : Task} :
    task.Undefined s limit t m ↔ ∃ text, task.EndsAt s limit ⟨t, .undefinedVariable text⟩ m := by
  cases task <;> rfl

theorem Task.Raises.names {task : Task} {text : String} (h : task.Raises s limit m ⟨t, .undefinedVariable text⟩) :
    task.Names s limit t m := by
  cases h with
  | unary _ hf => exact absurd hf (Operation.unary_ne_undefined t _ text)
  | binary _ _ hf => exact absurd hf (Operation.binary_ne_undefined t _ _ text)
  | read => exact .read
  | assigned hv => exact .assigned hv

theorem Reached.undefined {program : List Node} {start : Machine} {p : Site} {task : Task}
    (h : Reached s program start p limit task m) (hu : task.Undefined s limit t m) :
    ∃ p' limit' task' m', Reached s program start p' (limit' + 1) task' m' ∧ task'.Names s limit' t m' ∧
      task'.Undefined s (limit' + 1) t m' := by
  obtain ⟨text, hx⟩ := Task.undefined_iff.mp hu
  obtain ⟨p', limit', task', m', hr, hraises, hx⟩ := h.fault hx
  exact ⟨p', limit', task', m', hr, hraises.names, Task.undefined_iff.mpr ⟨text, hx⟩⟩

end

end Lox
