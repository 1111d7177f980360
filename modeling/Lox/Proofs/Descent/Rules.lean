import Lox.Proofs.Descent.Order

namespace Lox.Descent

open Parse

variable {turns : Nat}

theorem orderly_chain {level : Level} {operand : Parse Node} (h : Orderly turns operand) :
    ∀ n left, n ≤ turns → Orderly n (chain level operand n left) := by
  intro n
  induction n with
  | zero => exact fun left _ c => noTurn_outcome c
  | succ n ih =>
    intro left hn c
    rw [chain, bind_apply]
    cases hc : c.rest with
    | nil =>
      simp only [accept?, hc]
      exact noEnd_outcome hc
    | cons t ts =>
      rw [accept?_cons _ hc]
      by_cases ht : t.kind ≠ .eof ∧ t.kind ∈ level.operators
      · rw [if_pos ht]
        have hd : c.Reaches (skip [t] ts c) := reaches_skip hc (by simpa using ht.1)
        have hrest : Orderly n (do
            let right ← operand
            chain level operand n (join level left t right)) :=
          Orderly.bind (fun c => (h c).mono (by omega)) fun _ => ih _ (by omega)
        exact (hrest _).after hd (by simp [skip, hc])
      · rw [if_neg ht]
        exact .refl c

theorem orderly_primary {expression : Parse Node} (h : Orderly turns expression) :
    Orderly turns (primary expression) := by
  unfold primary
  refine (orderly_accept? _).bind fun _ => .ite (.pure _) ?_
  refine (orderly_accept? _).bind fun _ => .ite (.pure _) ?_
  refine (orderly_accept? _).bind fun _ => .ite (.pure _) ?_
  refine (orderly_accept? _).bind fun number => ?_
  cases number with
  | some t => exact .pure _
  | none =>
    refine (orderly_accept? _).bind fun name => ?_
    cases name with
    | some t => exact .pure _
    | none =>
      refine (orderly_accept? _).bind fun _ => .ite ?_ (orderly_fail (by simp))
      exact h.bind fun _ => (orderly_expect _ _).bind fun _ => .pure _

theorem orderly_assigned (index : Nat) (equals : Token) (target value : Node) :
    Orderly turns (assigned index equals target value) := by
  unfold assigned
  split
  · exact .pure _
  · exact (orderly_complain _ _ _).bind fun _ => .pure _

section

variable (turns)

theorem orderly_expressions (limit : Nat) :
    Orderly turns (expression turns limit) ∧ Orderly turns (assignment turns limit) ∧
      (∀ levels, Orderly turns (operand turns limit levels)) ∧ Orderly turns (unary turns limit) := by
  induction limit with
  | zero =>
    refine ⟨?_, ?_, fun levels => ?_, ?_⟩
    · rw [expression]; exact .tooDeep
    · rw [assignment]; exact .tooDeep
    · rw [operand]; exact .tooDeep
    · rw [unary]; exact .tooDeep
  | succ limit ih =>
    obtain ⟨he, ha, ho, hu⟩ := ih
    refine ⟨?_, ?_, fun levels => ?_, ?_⟩
    · rw [expression]
      exact (orderly_enter _).bind fun _ => ha
    · rw [assignment]
      refine (ho _).bind fun target => Orderly.get.bind fun c => (orderly_accept? _).bind fun equals => ?_
      cases equals with
      | none => exact .pure _
      | some equals => exact ha.bind fun value => orderly_assigned _ _ _ _
    · cases levels with
      | nil => rw [operand]; exact hu
      | cons level tighter =>
        rw [operand]
        exact (ho tighter).bind fun left => orderly_chain (ho tighter) turns left (Nat.le_refl turns)
    · rw [unary]
      refine (orderly_accept? _).bind fun operator => ?_
      cases operator with
      | none => exact orderly_primary he
      | some operator => exact hu.bind fun right => .pure _

theorem orderly_expression (limit : Nat) : Orderly turns (expression turns limit) :=
  (orderly_expressions turns limit).1

end

section

variable {expression statement : Parse Node} (he : Orderly turns expression) (hs : Orderly turns statement)

include he

theorem orderly_varDeclaration : Orderly turns (varDeclaration expression) := by
  unfold varDeclaration
  refine (orderly_expect _ _).bind fun name => (orderly_accept? _).bind fun equals => ?_
  cases equals with
  | none => exact (orderly_expect _ _).bind fun _ => .pure _
  | some equals => exact he.bind fun _ => (orderly_expect _ _).bind fun _ => .pure _

theorem orderly_expressionStatement : Orderly turns (expressionStatement expression) :=
  he.bind fun _ => (orderly_expect _ _).bind fun _ => .pure _

theorem orderly_printStatement : Orderly turns (printStatement expression) :=
  he.bind fun _ => (orderly_expect _ _).bind fun _ => .pure _

theorem orderly_forInitializer : Orderly turns (forInitializer expression) := by
  unfold forInitializer
  refine (orderly_accept? _).bind fun _ => .ite (.pure _) ?_
  refine (orderly_accept? _).bind fun _ => .ite ?_ ?_
  · exact (orderly_varDeclaration he).bind fun _ => .pure _
  · exact (orderly_expressionStatement he).bind fun _ => .pure _

theorem orderly_forClause (closing : Kind) (e : Expected) : Orderly turns (forClause expression closing e) := by
  unfold forClause
  refine orderly_peek.bind fun t => .ite ?_ ?_
  · exact (orderly_expect _ _).bind fun _ => .pure _
  · exact (he.map some).bind fun _ => (orderly_expect _ _).bind fun _ => .pure _

include hs

theorem orderly_forStatement : Orderly turns (forStatement expression statement) :=
  (orderly_expect _ _).bind fun _ => (orderly_forInitializer he).bind fun _ =>
    (orderly_forClause he _ _).bind fun _ => (orderly_forClause he _ _).bind fun _ => hs.bind fun _ => .pure _

theorem orderly_ifStatement : Orderly turns (ifStatement expression statement) := by
  unfold ifStatement
  refine (orderly_expect _ _).bind fun _ => he.bind fun _ => (orderly_expect _ _).bind fun _ =>
    hs.bind fun _ => (orderly_accept? _).bind fun other => ?_
  cases other with
  | none => exact .pure _
  | some _ => exact hs.bind fun _ => .pure _

theorem orderly_whileStatement : Orderly turns (whileStatement expression statement) :=
  (orderly_expect _ _).bind fun _ => he.bind fun _ => (orderly_expect _ _).bind fun _ => hs.bind fun _ => .pure _

end

theorem orderly_block {declaration : Parse (Option Node)} (h : Orderly turns declaration)
    (ht : ∀ c a c' t, c.rest.head? = some t → t.kind ≠ .eof → declaration c = .ok a c' →
      c'.rest.length < c.rest.length) :
    Orderly turns (block turns declaration) :=
  (orderly_untilKind (by simp) h ht turns [] (Nat.le_refl turns)).bind fun _ =>
    (orderly_expect _ _).bind fun _ => .pure _

section

variable (turns)

theorem consumes_primary {expression : Parse Node} (h : Orderly turns expression) :
    Consumes (primary expression) := by
  unfold primary
  refine Consumes.accept?_bind turns (fun _ => .pure _) (Consumes.accept?_bind turns (fun _ => .pure _)
    (Consumes.accept?_bind turns (fun _ => .pure _) (Consumes.accept?_bind turns (fun _ => .pure _)
      (Consumes.accept?_bind turns (fun _ => .pure _) (Consumes.accept?_bind turns (fun _ => ?_) (Consumes.complaint _))))))
  exact h.bind fun _ => (orderly_expect _ _).bind fun _ => .pure _

theorem consumes_expressions (limit : Nat) :
    Consumes (expression turns limit) ∧ Consumes (assignment turns limit) ∧
      (∀ levels, Consumes (operand turns limit levels)) ∧ Consumes (unary turns limit) := by
  induction limit with
  | zero =>
    refine ⟨?_, ?_, fun levels => ?_, ?_⟩ <;> intro c a c' h
    · rw [expression] at h; cases h
    · rw [assignment] at h; cases h
    · rw [operand] at h; cases h
    · rw [unary] at h; cases h
  | succ limit ih =>
    obtain ⟨-, ha, ho, hu⟩ := ih
    obtain ⟨he, hoa, hoo, hou⟩ := orderly_expressions turns limit
    refine ⟨?_, ?_, fun levels => ?_, ?_⟩
    · rw [expression]
      exact Consumes.bind_right turns (orderly_enter _) fun _ => ha
    · rw [assignment]
      refine (ho _).bind_left turns fun target => Orderly.get.bind fun c => (orderly_accept? _).bind fun equals => ?_
      cases equals with
      | none => exact .pure _
      | some equals => exact hoa.bind fun value => orderly_assigned _ _ _ _
    · cases levels with
      | nil => rw [operand]; exact hu
      | cons level tighter =>
        rw [operand]
        exact (ho tighter).bind_left turns fun left => orderly_chain (hoo tighter) turns left (Nat.le_refl turns)
    · rw [unary]
      exact Consumes.accept?_bind turns (fun operator => hou.bind fun right => .pure _) (consumes_primary turns he)

theorem consumes_expression (limit : Nat) : Consumes (expression turns limit) :=
  (consumes_expressions turns limit).1

theorem orderly_statements (limit : Nat) :
    (Orderly turns (statement turns limit) ∧ Consumes (statement turns limit)) ∧
      Orderly turns (declaration turns limit) ∧
      ∀ c a c' t, c.rest.head? = some t → t.kind ≠ .eof → declaration turns limit c = .ok a c' →
        c'.rest.length < c.rest.length := by
  induction limit with
  | zero =>
    refine ⟨⟨?_, ?_⟩, ?_, ?_⟩
    · rw [statement]; exact .tooDeep
    · intro c a c' h; rw [statement] at h; cases h
    · rw [declaration]; exact .tooDeep
    · intro c a c' t _ _ h; rw [declaration] at h; cases h
  | succ limit ih =>
    obtain ⟨⟨hs, hsc⟩, hd, hdt⟩ := ih
    have he := orderly_expression turns limit
    have hec := consumes_expression turns limit
    have hvs : Orderly turns (do
        if (← accept? [.varWord]).isSome then return ← varDeclaration (expression turns limit)
        statement turns limit) :=
      (orderly_accept? _).bind fun _ => .ite (orderly_varDeclaration he) hs
    have hvc : Consumes (do
        if (← accept? [.varWord]).isSome then return ← varDeclaration (expression turns limit)
        statement turns limit) :=
      Consumes.accept?_bind turns (fun _ => orderly_varDeclaration he) hsc
    refine ⟨⟨?_, ?_⟩, ?_, ?_⟩
    · rw [statement]
      refine (orderly_enter _).bind fun _ => ?_
      refine (orderly_accept? _).bind fun _ => .ite (orderly_forStatement he hs) ?_
      refine (orderly_accept? _).bind fun _ => .ite (orderly_ifStatement he hs) ?_
      refine (orderly_accept? _).bind fun _ => .ite (orderly_printStatement he) ?_
      refine (orderly_accept? _).bind fun _ => .ite (orderly_whileStatement he hs) ?_
      exact (orderly_accept? _).bind fun _ => .ite (orderly_block hd hdt) (orderly_expressionStatement he)
    · rw [statement]
      refine Consumes.bind_right turns (orderly_enter _) fun _ => ?_
      refine Consumes.accept?_bind turns (fun _ => orderly_forStatement he hs) ?_
      refine Consumes.accept?_bind turns (fun _ => orderly_ifStatement he hs) ?_
      refine Consumes.accept?_bind turns (fun _ => orderly_printStatement he) ?_
      refine Consumes.accept?_bind turns (fun _ => orderly_whileStatement he hs) ?_
      refine Consumes.accept?_bind turns (fun _ => orderly_block hd hdt) ?_
      exact hec.bind_left turns fun _ => (orderly_expect _ _).bind fun _ => .pure _
    · rw [declaration]
      exact (orderly_enter _).bind fun _ => orderly_recover hvs
    · intro c a c' t hc ht h
      rw [declaration] at h
      obtain ⟨_, d, hen, hr⟩ := bind_eq_ok.mp h
      cases hen
      exact recover_consumes (c := { c with events := c.events.push (.entered .declaration) }) hvs hvc hc ht hr

theorem orderly_declarations (kinds : List Kind) (hk : .eof ∈ kinds) (limit : Nat) :
    ∀ n before, n ≤ turns → Orderly n (untilKind kinds (declaration turns limit) n before) :=
  orderly_untilKind hk (orderly_statements turns limit).2.1 (orderly_statements turns limit).2.2

end

theorem declaration_error {limit : Nat} (hl : 0 < limit) {c d : Cursor} {e : Halt}
    (h : declaration turns limit c = .error e d) : e = .noEnd := by
  obtain ⟨limit, rfl⟩ := Nat.exists_eq_succ_of_ne_zero (Nat.ne_of_gt hl)
  rw [declaration] at h
  exact recover_error h

theorem program_ends {limit : Nat} (hl : 0 < limit) {tokens : List Token} (he : ∃ t ∈ tokens, t.kind = .eof) :
    ∃ ns c, program limit tokens = .ok ns c := by
  have ho := orderly_declarations tokens.length [.eof] (by simp) limit tokens.length [] (Nat.le_refl _)
    (Cursor.start tokens)
  cases hp : program limit tokens with
  | ok ns c => exact ⟨ns, c, rfl⟩
  | error e c =>
    rw [program] at hp
    obtain rfl : e = .noEnd := untilKind_error (fun _ _ _ h => declaration_error hl h) _ _ _ hp
    rw [hp] at ho
    exact absurd (ho.2 (ho.1.rest_ne_nil he)) (Nat.lt_irrefl _)

end Lox.Descent
