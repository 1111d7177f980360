import Lox.Execution

namespace Lox.Run

section

variable {t : Token} {x : Name} {m : Machine}

theorem lookup_apply (h : t.name? = some x) : lookup t m =
    match m.env.get? x with
    | some v => .ok v m
    | none => .error (.fault ⟨t, .undefinedVariable t.spelling⟩) m := by
  change (nameOf t >>= fun x => match m.env.get? x with
    | some v => pure v
    | none => undefined t) m = _
  rw [nameOf, h]
  change (match m.env.get? x with
    | some v => pure v
    | none => undefined t) m = _
  cases m.env.get? x <;> rfl

theorem lookup_misfit (h : t.name? = none) : lookup t m = .error (.misfit (.notAName t.lexeme.kindName)) m := by
  change (nameOf t >>= fun x => match m.env.get? x with
    | some v => pure v
    | none => undefined t) m = _
  rw [nameOf, h]
  rfl

theorem assign_apply (h : t.name? = some x) (v : Value) : assign t v m =
    match m.env.assign? x v with
    | some env => .ok () { m with env := env }
    | none => .error (.fault ⟨t, .undefinedVariable t.spelling⟩) m := by
  change (nameOf t >>= fun x => match m.env.assign? x v with
    | some env => modify fun m => { m with env := env }
    | none => undefined t) m = _
  rw [nameOf, h]
  change (match m.env.assign? x v with
    | some env => modify fun m : Machine => { m with env := env }
    | none => undefined t) m = _
  cases m.env.assign? x v <;> rfl

theorem assign_misfit (h : t.name? = none) (v : Value) :
    assign t v m = .error (.misfit (.notAName t.lexeme.kindName)) m := by
  change (nameOf t >>= fun x => match m.env.assign? x v with
    | some env => modify fun m => { m with env := env }
    | none => undefined t) m = _
  rw [nameOf, h]
  rfl

theorem define_apply (h : t.name? = some x) (v : Value) : define t v m = .ok () { m with env := m.env.define x v } := by
  unfold define nameOf
  rw [h]
  rfl

theorem define_misfit (h : t.name? = none) (v : Value) :
    define t v m = .error (.misfit (.notAName t.lexeme.kindName)) m := by
  unfold define nameOf
  rw [h]
  rfl

end

theorem failed_fst (s : Settings) (x : RuntimeError) (m : Machine) : (failed s x m).1 = .failed x := by
  unfold failed
  dsimp only
  split <;> rfl

theorem failed_env (s : Settings) (x : RuntimeError) (m : Machine) : (failed s x m).2.env = m.env := by
  unfold failed note
  by_cases h : 1 ≤ s.verbosity
  · simp only [if_pos h]
  · simp only [if_neg h]

structure Closed (s : Settings) (P : (α : Type) → Run α → Prop) : Prop where
  pure : ∀ {α} (a : α), P α (pure a)
  throw : ∀ {α} (e : Stop), P α (throw e)
  bind : ∀ {α β} {x : Run α} {f : α → Run β}, P α x → (∀ a, P β (f a)) → P β (x >>= f)
  note : ∀ level text, P Unit (note s level text)
  lookup : ∀ t, P Value (lookup t)
  assign : ∀ t v, P Unit (assign t v)

namespace Closed

variable {s : Settings} {P : (α : Type) → Run α → Prop} (h : Closed s P)

include h

theorem ofExcept {α : Type} (r : Except RuntimeError α) : P α (ofExcept r) := by
  cases r with
  | ok a => exact h.pure a
  | error e => exact h.throw (.fault e)

theorem tokenOf (n : Node) : P Token (tokenOf n) := by
  unfold Run.tokenOf
  split
  · exact h.pure _
  · exact h.throw _

theorem evaluate (limit : Nat) (n : Node) : P Value (evaluate s limit n) := by
  induction limit generalizing n with
  | zero => exact h.throw .tooDeep
  | succ limit ih =>
    cases n with
    | literal v => exact h.pure v
    | grouping e => exact ih e
    | unary operator e => exact h.bind (ih e) fun _ => h.bind (h.tokenOf operator) fun _ => h.ofExcept _
    | binary a operator b =>
      exact h.bind (ih a) fun _ => h.bind (ih b) fun _ => h.bind (h.tokenOf operator) fun _ => h.ofExcept _
    | logical a operator b =>
      refine h.bind (ih a) fun left => h.bind (h.tokenOf operator) fun t => ?_
      split
      · exact h.pure left
      · exact ih b
    | «variable» name => exact h.bind (h.tokenOf name) fun t => h.lookup t
    | assign name e =>
      refine h.bind (ih e) fun v => h.bind (h.tokenOf name) fun t => h.bind (h.assign t v) fun _ => ?_
      exact h.bind (h.note 2 _) fun _ => h.pure v
    | _ => exact h.throw _

end Closed

end Lox.Run
