import Lox.Proofs.Complaints.Ledger

namespace Lox.Descent

open Parse

variable {σ : Ended} {slack : Nat}

theorem tallied_chain {level : Level} {operand : Parse Node} (h : Tallied σ slack operand) :
    ∀ n left, Tallied σ slack (chain level operand n left) := by
  intro n
  induction n with
  | zero => exact fun _ => .noEnd
  | succ n ih =>
    intro left
    rw [chain]
    refine (Tallied.accept? _).bind fun operator => ?_
    cases operator with
    | none => exact .pure _
    | some operator => exact h.bind fun right => ih _

theorem tallied_primary {expression : Parse Node} (h : Tallied σ slack expression) :
    Tallied σ slack (primary expression) := by
  unfold primary
  refine (Tallied.accept? _).bind fun _ => .ite (.pure _) ?_
  refine (Tallied.accept? _).bind fun _ => .ite (.pure _) ?_
  refine (Tallied.accept? _).bind fun _ => .ite (.pure _) ?_
  refine (Tallied.accept? _).bind fun number => ?_
  cases number with
  | some t => exact .pure _
  | none =>
    refine (Tallied.accept? _).bind fun name => ?_
    cases name with
    | some t => exact .pure _
    | none =>
      refine (Tallied.accept? _).bind fun _ => .ite ?_ (.fail _)
      exact h.bind fun _ => (Tallied.expect _ _).bind fun _ => .pure _

theorem tallied_expressions (turns limit : Nat) :
    Tallied σ slack (expression turns limit) ∧ Tallied σ slack (assignment turns limit) ∧
      (∀ levels, Tallied σ slack (operand turns limit levels)) ∧ Tallied σ slack (unary turns limit) := by
  induction limit with
  | zero => exact ⟨.tooDeep, .tooDeep, fun _ => .tooDeep, .tooDeep⟩
  | succ limit ih =>
    obtain ⟨he, ha, ho, hu⟩ := ih
    refine ⟨?_, ?_, fun levels => ?_, ?_⟩
    · rw [expression]
      exact (Tallied.enter _).bind fun _ => ha
    · rw [assignment]
      exact (ho _).bind fun target => .assignedIf ha target
    · cases levels with
      | nil => rw [operand]; exact hu
      | cons level tighter =>
        rw [operand]
        exact (ho tighter).bind fun left => tallied_chain (ho tighter) turns left
    · rw [unary]
      refine (Tallied.accept? _).bind fun operator => ?_
      cases operator with
      | none => exact tallied_primary he
      | some operator => exact hu.bind fun right => .pure _

theorem tallied_expression (turns limit : Nat) : Tallied σ slack (expression turns limit) :=
  (tallied_expressions turns limit).1

section

variable {expression statement : Parse Node} (he : Tallied σ slack expression) (hs : Tallied σ slack statement)

include he

theorem tallied_varDeclaration : Tallied σ slack (varDeclaration expression) := by
  unfold varDeclaration
  refine (Tallied.expect _ _).bind fun name => (Tallied.accept? _).bind fun equals => ?_
  cases equals with
  | none => exact (Tallied.expect _ _).bind fun _ => .pure _
  | some equals => exact he.bind fun _ => (Tallied.expect _ _).bind fun _ => .pure _

theorem tallied_expressionStatement : Tallied σ slack (expressionStatement expression) :=
  he.bind fun _ => (Tallied.expect _ _).bind fun _ => .pure _

theorem tallied_printStatement : Tallied σ slack (printStatement expression) :=
  he.bind fun _ => (Tallied.expect _ _).bind fun _ => .pure _

theorem tallied_forInitializer : Tallied σ slack (forInitializer expression) := by
  unfold forInitializer
  refine (Tallied.accept? _).bind fun _ => .ite (.pure _) ?_
  refine (Tallied.accept? _).bind fun _ => .ite ?_ ?_
  · exact (tallied_varDeclaration he).bind fun _ => .pure _
  · exact (tallied_expressionStatement he).bind fun _ => .pure _

theorem tallied_forClause (closing : Kind) (e : Expected) : Tallied σ slack (forClause expression closing e) := by
  unfold forClause
  refine Tallied.peek.bind fun t => .ite ?_ ?_
  · exact (Tallied.expect _ _).bind fun _ => .pure _
  · exact (he.map some).bind fun _ => (Tallied.expect _ _).bind fun _ => .pure _

include hs

theorem tallied_forStatement : Tallied σ slack (forStatement expression statement) :=
  (Tallied.expect _ _).bind fun _ => (tallied_forInitializer he).bind fun _ =>
    (tallied_forClause he _ _).bind fun _ => (tallied_forClause he _ _).bind fun _ => hs.bind fun _ => .pure _

theorem tallied_ifStatement : Tallied σ slack (ifStatement expression statement) := by
  unfold ifStatement
  refine (Tallied.expect _ _).bind fun _ => he.bind fun _ => (Tallied.expect _ _).bind fun _ =>
    hs.bind fun _ => (Tallied.accept? _).bind fun other => ?_
  cases other with
  | none => exact .pure _
  | some _ => exact hs.bind fun _ => .pure _

theorem tallied_whileStatement : Tallied σ slack (whileStatement expression statement) :=
  (Tallied.expect _ _).bind fun _ => he.bind fun _ => (Tallied.expect _ _).bind fun _ => hs.bind fun _ => .pure _

end

theorem tallied_block {turns : Nat} {declaration : Parse (Option Node)}
    (h : ∀ c, c.Along σ → Settles σ c (declaration c)) : Tallied σ 1 (block turns declaration) := by
  intro c halong
  have hparts := untilKind_settles (by decide : Kind.eof ∈ [Kind.rightBrace, .eof]) h turns [] c halong
  have hclose (ns : List Node) : Tallied σ 1 (do
      let _ ← expect .rightBrace .braceAfterBlock
      return Node.block ns) :=
    (Tallied.expect _ _).bind fun _ => .pure _
  rw [block, bind_apply]
  cases hc : untilKind [.rightBrace, .eof] declaration turns [] c with
  | error e d =>
    rw [hc] at hparts
    cases e with
    | complained => cases hparts
    | tooDeep => exact hparts
    | noEnd => trivial
  | ok ns d =>
    rw [hc] at hparts
    rcases hparts with hquiet | ⟨hplace, hloud⟩
    · exact .trans hquiet (hclose ns d hquiet.along)
    · obtain ⟨t, ts, hd⟩ := hloud.along.rest_cons
      have ht : t.kind = .eof := (hloud.along.eof_iff hd).mpr hplace
      dsimp only
      rw [bind_apply, expect_end hd ht]
      exact hloud.again hplace (.one hloud.along hd _)

theorem settled_statements (turns limit : Nat) :
    Tallied σ 0 (statement turns limit) ∧ ∀ c, c.Along σ → Settles σ c (declaration turns limit c) := by
  induction limit with
  | zero =>
    refine ⟨?_, fun c hc => ?_⟩
    · rw [statement]
      exact .tooDeep
    · rw [declaration]
      exact .refl hc
  | succ limit ih =>
    obtain ⟨hs, hd⟩ := ih
    have he (slack : Nat) : Tallied σ slack (expression turns limit) := tallied_expression turns limit
    refine ⟨?_, fun c hc => ?_⟩
    · rw [statement]
      refine (Tallied.enter _).bind fun _ => ?_
      refine (Tallied.accept? _).bind fun _ => .ite (tallied_forStatement (he 0) hs) ?_
      refine (Tallied.accept? _).bind fun _ => .ite (tallied_ifStatement (he 0) hs) ?_
      refine (Tallied.accept? _).bind fun _ => .ite (tallied_printStatement (he 0)) ?_
      refine (Tallied.accept? _).bind fun _ => .ite (tallied_whileStatement (he 0) hs) ?_
      exact .braced (tallied_block hd) (tallied_expressionStatement (he 0))
    · have hpart : Tallied σ 0 (do
          if (← accept? [.varWord]).isSome then return ← varDeclaration (expression turns limit)
          statement turns limit) :=
        (Tallied.accept? _).bind fun _ => .ite (tallied_varDeclaration (he 0)) hs
      have hquiet : c.Quiet σ { c with events := c.events.push (.entered .declaration) } :=
        (Tallied.enter .declaration : Tallied σ 0 _) c hc
      rw [declaration]
      exact .after hquiet (hpart.recover _ hquiet.along)

theorem program_settles (limit : Nat) (σ : Ended) :
    Settles σ (Cursor.start σ.tokens) (program limit σ.tokens) :=
  untilKind_settles (List.mem_singleton.mpr rfl) (settled_statements σ.tokens.length limit).2 _ _ _ (.start σ)

/-- No token is complained about twice but the end token, and that at most once and once more for each brace. Complaints
are in the order of the tokens, but for those about targets, so there are at most as many as tokens up to the end token
and braces. -/
theorem program_blames_once {limit : Nat} (hl : 0 < limit) {tokens : List Token} (he : ∃ t ∈ tokens, t.kind = .eof) :
    let before := tokens.takeWhile (·.kind ≠ .eof)
    ∃ ns c, program limit tokens = .ok ns c ∧
      (∀ x ∈ c.complaints.toList, tokens[x.index]? = some x.token) ∧
      ((c.complaints.toList.filter (·.token.kind ≠ .eof)).map Complaint.index).Nodup ∧
      (c.complaints.toList.filter (·.problem ≠ .invalidAssignmentTarget)).Pairwise (fun x y =>
        x.index ≤ y.index ∧ (x.token.kind ≠ .eof → x.index < y.index)) ∧
      c.complaints.toList.countP (·.token.kind = .eof) ≤ 1 + before.countP (·.kind = .leftBrace) ∧
      c.complaints.toList.length ≤ before.length + before.countP (·.kind = .leftBrace) + 1 := by
  obtain ⟨ns, c, hc⟩ := program_ends hl he
  obtain ⟨σ, rfl, hbefore⟩ := Ended.exists_of_mem he
  rw [hbefore]
  have hsettles := program_settles limit σ
  rw [hc] at hsettles
  have hloud : (Cursor.start σ.tokens).Loud σ 0 c :=
    hsettles.elim (fun hquiet => hquiet.loud hquiet.braces_le (.refl hquiet.along)) And.right
  obtain ⟨xs, hs, hends⟩ := hloud
  have hcomplaints : c.complaints.toList = xs := hs.complaints
  have hbraces : braces c.consumed ≤ σ.before.countP (·.kind = .leftBrace) :=
    hs.arrives.braces_le
  refine ⟨ns, c, hc, ?_⟩
  rw [hcomplaints]
  refine ⟨hs.tokens, hs.nodup, hs.ordered, ?_, ?_⟩
  · rw [hs.countP_eof]
    omega
  · have hlen : xs.length ≤ σ.before.length + endings σ xs := hs.length_le
    omega

theorem program_blames_once_broken :
    let token (k : Kind) (s : String) : Token := ⟨k, .text s, .nil, 1⟩
    let before := [token .leftBrace "\x7b", token .leftBrace "\x7b", token .number "1", token .equal "=",
      token .number "2", token .semicolon ";", token .printWord "print"]
    let tokens := before ++ [endToken 1]
    0 < depthLimit ∧ (∃ t ∈ tokens, t.kind = .eof) ∧ ∃ ns c, program depthLimit tokens = .ok ns c ∧
      ((c.complaints.toList.filter (·.token.kind ≠ .eof)).map Complaint.index).Nodup ∧
      (c.complaints.toList.filter (·.problem ≠ .invalidAssignmentTarget)).Pairwise (fun x y =>
        x.index ≤ y.index ∧ (x.token.kind ≠ .eof → x.index < y.index)) ∧
      c.complaints.toList.countP (·.token.kind = .eof) ≤ 3 ∧ c.complaints.toList.length ≤ 10 := by
  intro token before tokens
  have hl : 0 < depthLimit := by decide
  have he : ∃ t ∈ tokens, t.kind = .eof := ⟨endToken 1, by decide, rfl⟩
  obtain ⟨ns, c, hc, -, hnodup, hordered, hends, hlen⟩ := program_blames_once hl he
  exact ⟨hl, he, ns, c, hc, hnodup, hordered, hends, hlen⟩

example :
    let token (k : Kind) : Token := ⟨k, .text "", .nil, 1⟩
    let tokens := [token .leftBrace, token .leftBrace, token .number, token .equal, token .number, token .semicolon,
      token .printWord, endToken 1]
    (match program 30 tokens with
      | .ok _ c => c.complaints.toList.map fun x => (x.index, x.problem)
      | .error _ _ => []) =
      [(3, .invalidAssignmentTarget), (7, .missing .expression), (7, .missing .braceAfterBlock),
        (7, .missing .braceAfterBlock)] := by
  cbv

end Lox.Descent
