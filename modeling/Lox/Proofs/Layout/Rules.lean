import Lox.Proofs.Descent.Order
import Lox.Proofs.Grammar
import Lox.Proofs.Layout.Lines

namespace Lox

variable {f : Int → Int}

namespace Parse

variable {α β γ δ : Type}

def relined (f : Int → Int) (g : α → β) : EStateM.Result Halt Cursor α → EStateM.Result Halt Cursor β
  | .ok a c => .ok (g a) (c.reline f)
  | .error e c => .error e (c.reline f)

def Relines (f : Int → Int) (g : α → β) (x : Parse α) (y : Parse β) : Prop :=
  ∀ c : Cursor, y (c.reline f) = relined f g (x c)

namespace Relines

theorem bind {g : α → β} {h : γ → δ} {x : Parse α} {y : Parse β} {k : α → Parse γ} {k' : β → Parse δ}
    (hx : Relines f g x y) (hk : ∀ a, Relines f h (k a) (k' (g a))) : Relines f h (x >>= k) (y >>= k') := by
  intro c
  rw [bind_apply, bind_apply, hx c]
  cases x c with
  | ok a d => exact hk a d
  | error e d => rfl

theorem pure {g : α → β} {a : α} {b : β} (h : b = g a) : Relines f g (pure a : Parse α) (pure b) := by
  intro c
  rw [h]
  rfl

theorem map {g : α → β} {h : γ → δ} {x : Parse α} {y : Parse β} {k : α → γ} {k' : β → δ} (hx : Relines f g x y)
    (hk : ∀ a, k' (g a) = h (k a)) : Relines f h (k <$> x) (k' <$> y) :=
  hx.bind fun a => .pure (hk a)

theorem throw (e : Halt) {g : α → β} : Relines f g (throw e : Parse α) (throw e) :=
  fun _ => rfl

theorem ite {p : Prop} [Decidable p] {g : α → β} {x x' : Parse α} {y y' : Parse β} (h : Relines f g x y)
    (h' : Relines f g x' y') : Relines f g (if p then x else x') (if p then y else y') := by
  split
  · exact h
  · exact h'

theorem accept?_bind {g : α → β} {kinds : List Kind} {k : Option Token → Parse α} {k' : Option Token → Parse β}
    (hsome : ∀ t, Relines f g (k (some t)) (k' (some (t.reline f)))) (hnone : Relines f g (k none) (k' none)) :
    Relines f g (accept? kinds >>= k) (accept? kinds >>= k') := by
  refine bind (g := Option.map (·.reline f)) ?_ fun t? => ?_
  · intro c
    cases hc : c.rest with
    | nil => simp [accept?, hc, Cursor.reline, relined]
    | cons t ts =>
      simp only [accept?, Cursor.reline, hc, List.map_cons, Token.kind_reline]
      split <;> simp [relined, Cursor.reline, skip, hc, Event.reline]
  · cases t? with
    | some t => exact hsome t
    | none => exact hnone

theorem peek : Relines f (·.reline f) peek peek := by
  intro c
  cases hc : c.rest <;> simp [Parse.peek, hc, Cursor.reline, relined]

theorem enter (r : Rule) : Relines f id (enter r) (enter r) := by
  intro c
  simp [Parse.enter, Cursor.reline, relined, Event.reline]

theorem complain (index : Nat) (t : Token) (p : Problem) : Relines f id (complain index t p) (complain index (t.reline f) p) := by
  intro c
  simp [Parse.complain, Cursor.reline, relined, Complaint.reline]

theorem complainHere (p : Problem) : Relines f id (complainHere p) (complainHere p) := by
  intro c
  cases hc : c.rest with
  | nil => simp [Parse.complainHere, hc, Cursor.reline, relined]
  | cons t ts =>
    have h := complain (f := f) c.taken t p c
    simp only [Parse.complainHere, hc, Cursor.reline, List.map_cons] at h ⊢
    exact h

theorem fail {g : α → β} (p : Problem) : Relines f g (fail p) (fail p) :=
  (complainHere p).bind fun _ => .throw .complained

theorem expect (kind : Kind) (e : Expected) : Relines f (·.reline f) (expect kind e) (expect kind e) :=
  accept?_bind (fun _ => .pure rfl) (.fail _)

end Relines

theorem toBoundary_reline (last : Kind) (ts : List Token) :
    toBoundary last (ts.map (·.reline f)) =
      ((toBoundary last ts).1.map (·.reline f), (toBoundary last ts).2.map (·.reline f)) := by
  induction ts generalizing last with
  | nil => rfl
  | cons t ts ih =>
    simp only [List.map_cons, toBoundary, Token.kind_reline, ih]
    by_cases ht : t.kind = .eof ∨ last = .semicolon ∨ t.kind.startsStatement
    · simp only [if_pos ht, List.map_nil, List.map_cons]
    · simp only [if_neg ht, List.map_cons]

theorem skip_reline (ts rest : List Token) (c : Cursor) :
    skip (ts.map (·.reline f)) (rest.map (·.reline f)) (c.reline f) = (skip ts rest c).reline f := by
  simp [skip, Cursor.reline, Function.comp_def, Event.reline]

namespace Relines

theorem synchronize : Relines f id synchronize synchronize := by
  intro c
  cases hc : c.rest with
  | nil => simp [Parse.synchronize, hc, Cursor.reline, relined]
  | cons t ts =>
    have hc' : (c.reline f).rest = t.reline f :: ts.map (·.reline f) := by simp [Cursor.reline, hc]
    have hskip := skip_reline (f := f) (t :: (toBoundary t.kind ts).1) (toBoundary t.kind ts).2 c
    rw [List.map_cons] at hskip
    simp only [synchronize_cons hc, synchronize_cons hc', Token.kind_reline, toBoundary_reline, List.isEmpty_map, hskip]
    split
    · rfl
    · split <;> rfl

theorem recover {g : α → β} {x : Parse α} {y : Parse β} (h : Relines f g x y) :
    Relines f (Option.map g) (recover x) (recover y) := by
  intro c
  have hsync : Relines f (Option.map g) (do Parse.synchronize; return none) (do Parse.synchronize; return none) :=
    synchronize.bind fun _ => .pure rfl
  simp only [Parse.recover, h c]
  cases x c with
  | ok a d => rfl
  | error e d =>
    cases e with
    | complained => exact hsync d
    | tooDeep => exact ((complainHere .nestingTooDeep).bind fun _ => hsync) d
    | noEnd => rfl

theorem untilKind {g : α → β} {kinds : List Kind} {x : Parse (Option α)} {y : Parse (Option β)}
    (h : Relines f (Option.map g) x y) :
    ∀ n before, Relines f (List.map g) (untilKind kinds x n before) (untilKind kinds y n (before.map g)) := by
  intro n
  induction n with
  | zero => exact fun before => .throw .noEnd
  | succ n ih =>
    intro before
    refine peek.bind fun t => .ite (.pure (by simp)) (h.bind fun a? => ?_)
    have hmap : (a?.map g).toList ++ before.map g = (a?.toList ++ before).map g := by cases a? <;> simp
    rw [hmap]
    exact ih _

end Relines

end Parse

namespace Descent

open Parse

variable (f)

abbrev Unlined (part : Parse Node) : Prop :=
  Relines f (·.reline f) part part

variable {f} {expression statement : Parse Node}

theorem relines_chain {level : Level} {operand : Parse Node} (h : Unlined f operand) :
    ∀ n left, Relines f (·.reline f) (chain level operand n left) (chain level operand n (left.reline f)) := by
  intro n
  induction n with
  | zero => exact fun left => .throw .noEnd
  | succ n ih =>
    intro left
    refine .accept?_bind (fun t => h.bind fun right => ?_) (.pure rfl)
    rw [join_eq_fold, ← Ascent.Phrase.fold_reline]
    exact ih _

theorem relines_assigned (index : Nat) (equals : Token) (target value : Node) :
    Relines f (·.reline f) (assigned index equals target value)
      (assigned index (equals.reline f) (target.reline f) (value.reline f)) := by
  cases target with
  | «variable» name => exact .pure rfl
  | _ => exact (Relines.complain index equals .invalidAssignmentTarget).bind fun _ => .pure rfl

theorem relines_primary (he : Unlined f expression) : Unlined f (primary expression) := by
  refine .accept?_bind (fun _ => .pure rfl) ?_
  refine .accept?_bind (fun _ => .pure rfl) ?_
  refine .accept?_bind (fun _ => .pure rfl) ?_
  refine .accept?_bind (fun _ => .pure rfl) ?_
  refine .accept?_bind (fun _ => .pure rfl) ?_
  refine .accept?_bind (fun _ => ?_) (.fail _)
  exact Relines.bind he fun _ => (Relines.expect _ _).bind fun _ => .pure rfl

section

variable (turns : Nat)

theorem relines_expressions (limit : Nat) :
    Unlined f (Descent.expression turns limit) ∧ Unlined f (assignment turns limit) ∧
      (∀ levels, Unlined f (operand turns limit levels)) ∧ Unlined f (unary turns limit) := by
  induction limit with
  | zero => exact ⟨.throw .tooDeep, .throw .tooDeep, fun _ => .throw .tooDeep, .throw .tooDeep⟩
  | succ limit ih =>
    obtain ⟨he, ha, ho, hu⟩ := ih
    refine ⟨?_, ?_, fun levels => ?_, ?_⟩
    · rw [Descent.expression]
      exact (Relines.enter _).bind fun _ => ha
    · rw [assignment]
      have hget : Relines f (Cursor.reline f) (get : Parse Cursor) get := fun c => rfl
      refine (ho _).bind fun target => hget.bind fun c => .accept?_bind (fun equals => ha.bind fun value => ?_) (.pure rfl)
      exact relines_assigned _ _ _ _
    · cases levels with
      | nil => rw [operand]; exact hu
      | cons level tighter =>
        rw [operand]
        exact (ho tighter).bind fun left => relines_chain (ho tighter) turns left
    · rw [unary]
      exact .accept?_bind (fun _ => hu.bind fun _ => .pure rfl) (relines_primary he)

end

theorem relines_varDeclaration (he : Unlined f expression) : Unlined f (varDeclaration expression) := by
  refine (Relines.expect _ _).bind fun name => .accept?_bind (fun _ => ?_) ?_
  · exact Relines.bind he fun _ => (Relines.expect _ _).bind fun _ => .pure rfl
  · exact Relines.bind (.pure (Node.reline_absent f).symm) fun _ => (Relines.expect _ _).bind fun _ => .pure rfl

theorem relines_expressionStatement (he : Unlined f expression) : Unlined f (expressionStatement expression) :=
  Relines.bind he fun _ => (Relines.expect _ _).bind fun _ => .pure rfl

theorem relines_printStatement (he : Unlined f expression) : Unlined f (printStatement expression) :=
  Relines.bind he fun _ => (Relines.expect _ _).bind fun _ => .pure rfl

theorem relines_forInitializer (he : Unlined f expression) :
    Relines f (Option.map (·.reline f)) (forInitializer expression) (forInitializer expression) := by
  refine .accept?_bind (fun _ => .pure rfl) (.accept?_bind (fun _ => ?_) ?_)
  · exact (relines_varDeclaration he).bind fun _ => .pure rfl
  · exact (relines_expressionStatement he).bind fun _ => .pure rfl

theorem relines_forClause (he : Unlined f expression) (closing : Kind) (e : Expected) :
    Relines f (Option.map (·.reline f)) (forClause expression closing e) (forClause expression closing e) := by
  refine Relines.peek.bind fun t => .ite ?_ ?_
  · exact Relines.bind (g := Option.map (·.reline f)) (.pure rfl) fun _ => (Relines.expect _ _).bind fun _ => .pure rfl
  · exact (Relines.map (h := Option.map (·.reline f)) he fun _ => rfl).bind fun _ => (Relines.expect _ _).bind fun _ => .pure rfl

theorem relines_forStatement (he : Unlined f expression) (hs : Unlined f statement) :
    Unlined f (forStatement expression statement) :=
  (Relines.expect _ _).bind fun _ => (relines_forInitializer he).bind fun _ => (relines_forClause he _ _).bind fun _ =>
    (relines_forClause he _ _).bind fun _ => hs.bind fun _ => .pure (Node.forLoop_reline f _ _ _ _).symm

theorem relines_ifStatement (he : Unlined f expression) (hs : Unlined f statement) :
    Unlined f (ifStatement expression statement) := by
  refine (Relines.expect _ _).bind fun _ => he.bind fun _ => (Relines.expect _ _).bind fun _ => hs.bind fun _ => ?_
  refine .accept?_bind (fun _ => hs.bind fun _ => .pure rfl) ?_
  exact Relines.bind (.pure (Node.reline_absent f).symm) fun _ => .pure rfl

theorem relines_whileStatement (he : Unlined f expression) (hs : Unlined f statement) :
    Unlined f (whileStatement expression statement) :=
  (Relines.expect _ _).bind fun _ => he.bind fun _ => (Relines.expect _ _).bind fun _ => hs.bind fun _ => .pure rfl

section

variable (turns : Nat)

theorem relines_block {declaration : Parse (Option Node)} (h : Relines f (Option.map (·.reline f)) declaration declaration) :
    Unlined f (block turns declaration) := by
  refine (Relines.untilKind h turns []).bind fun ns => (Relines.expect _ _).bind fun _ => .pure ?_
  rw [Node.reline, Node.relineAll_eq_map]

theorem relines_statements (limit : Nat) :
    Unlined f (Descent.statement turns limit) ∧
      Relines f (Option.map (·.reline f)) (declaration turns limit) (declaration turns limit) := by
  induction limit with
  | zero => exact ⟨.throw .tooDeep, .throw .tooDeep⟩
  | succ limit ih =>
    obtain ⟨hs, hd⟩ := ih
    have he : Unlined f (Descent.expression turns limit) := (relines_expressions turns limit).1
    refine ⟨?_, ?_⟩
    · rw [Descent.statement]
      refine (Relines.enter _).bind fun _ => ?_
      refine .accept?_bind (fun _ => relines_forStatement he hs) ?_
      refine .accept?_bind (fun _ => relines_ifStatement he hs) ?_
      refine .accept?_bind (fun _ => relines_printStatement he) ?_
      refine .accept?_bind (fun _ => relines_whileStatement he hs) ?_
      exact .accept?_bind (fun _ => relines_block turns hd) (relines_expressionStatement he)
    · rw [declaration]
      refine (Relines.enter _).bind fun _ => .recover ?_
      exact .accept?_bind (fun _ => relines_varDeclaration he) hs

end

theorem program_reline (f : Int → Int) (limit : Nat) (ts : List Token) :
    program limit (ts.map (·.reline f)) = relined f (List.map (·.reline f)) (program limit ts) := by
  have hloop : Relines f (List.map (·.reline f)) (untilKind [.eof] (declaration ts.length limit) ts.length [])
      (untilKind [.eof] (declaration ts.length limit) ts.length []) :=
    .untilKind (relines_statements ts.length limit).2 ts.length []
  have h := hloop (Cursor.start ts)
  rw [Cursor.start_reline] at h
  rw [program, List.length_map]
  exact h

end Descent

end Lox
