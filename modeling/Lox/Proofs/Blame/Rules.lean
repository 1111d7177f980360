import Lox.Proofs.Blame.Tracking
import Lox.Proofs.Recovery.Rules

namespace Lox.Descent

open Ascent
open Grammar Parse

section

variable {frames : List Frame} {done : List Phrase} {clause : Clause} {n : Nat}

theorem chain_tracks {level : Level} {tighter : List Level} (hl : level ∈ Ascent.levels) {operand : Parse Node}
    (h : Tracks (Awaits frames done clause n) (Has frames done clause n tighter) operand) :
    ∀ k left, Tracks (Has frames done clause n tighter) (Has frames done clause n (level :: tighter))
      (chain level operand k left) := by
  have heof : ∀ l ∈ Ascent.levels, .eof ∉ l.operators := by decide
  intro k
  induction k with
  | zero => exact fun left => .noEnd
  | succ k ih =>
    refine fun left => .accept?_bind (heof level hl) (fun C t ts hP ht => hP.leads_operator hl ht)
      (fun t => h.bind fun right => ih _) ((Tracks.pure left).before fun C ts hP => ⟨hP.1.1, ?_⟩)
    exact List.forall_mem_cons.mpr ⟨hP.2, hP.1.2⟩

theorem assigned_tracks {P : Situation} (index : Nat) (equals : Token) (target value : Node) :
    Tracks P P (assigned index equals target value) := by
  unfold assigned
  split
  · exact .pure _
  · exact (Tracks.complain index equals).bind fun _ => .pure _

theorem primary_tracks {expression : Parse Node}
    (he : ∀ n, Tracks (Awaits frames done clause n) (Read frames done clause n) expression) :
    Tracks (Without [.bang, .minus] (Awaits frames done clause n)) (Has frames done clause n []) (primary expression) := by
  have hall : ∀ k ∈ opening, k ∈ [Kind.bang, .minus, .falseWord, .trueWord, .nilWord, .number, .string, .identifier,
      .leftParen] := by decide
  have hliteral : ∀ k ∈ [Kind.number, .string],
      k ∈ [Kind.number, .string, .trueWord, .falseWord, .nilWord, .identifier] := by decide
  have hword (k : Kind) (hk : k ∈ [Kind.number, .string, .trueWord, .falseWord, .nilWord, .identifier]) (C : Config)
      (t : Token) (ts : List Token) (h : Awaits frames done clause n C (t :: ts)) (ht : t.kind ∈ [k]) :
      C.Leads t (Has frames done clause n []) ts := by
    refine h.leads_has ?_
    rwa [List.mem_singleton.mp ht]
  refine .accept?_next (by decide) (hword _ (by decide)) (fun _ => .pure _) ?_
  refine .accept?_next (by decide) (hword _ (by decide)) (fun _ => .pure _) ?_
  refine .accept?_next (by decide) (hword _ (by decide)) (fun _ => .pure _) ?_
  refine .accept?_next (by decide) (fun C t ts h ht => h.leads_has (hliteral _ ht)) (fun _ => .pure _) ?_
  refine .accept?_next (by decide) (hword _ (by decide)) (fun _ => .pure _) ?_
  refine .accept?_next (by decide) (fun C t ts h ht => h.leads_group (List.mem_singleton.mp ht)) (fun _ => ?_) ?_
  -- inside the parentheses one more of them is open
  · refine (he (n + 1)).bind fun inner => .bind (Q := Has frames done clause n []) ?_ fun _ => .pure _
    exact .expect (by decide) (fun C t ts h => h.leads_has) fun C t ts h => h.refuses_group
  · refine .fail (by simp) fun C t ts h => h.1.refuses fun hm => h.2 t.kind rfl (hall _ hm)

theorem assignedIf_tracks {value : Parse Node} (h : Tracks (Awaits frames done clause n) (Read frames done clause n) value)
    (target : Node) (index : Nat) :
    Tracks (Has frames done clause n Ascent.levels) (Read frames done clause n) (assignedIf value target index) := by
  refine .accept?_kind (by decide) (fun C t ts h => h.leads_equal) (fun equals => ?_) (.pure target)
  exact h.bind fun value => assigned_tracks index equals target value

variable (frames done clause) (turns : Nat)

theorem expressions_track (limit : Nat) :
    (∀ n, Tracks (Awaits frames done clause n) (Read frames done clause n) (expression turns limit)) ∧
      (∀ n, Tracks (Awaits frames done clause n) (Read frames done clause n) (assignment turns limit)) ∧
      (∀ n levels, levels ⊆ Ascent.levels →
        Tracks (Awaits frames done clause n) (Has frames done clause n levels) (operand turns limit levels)) ∧
      ∀ n, Tracks (Awaits frames done clause n) (Has frames done clause n []) (unary turns limit) := by
  induction limit with
  | zero => exact ⟨fun _ => .tooDeep, fun _ => .tooDeep, fun _ _ _ => .tooDeep, fun _ => .tooDeep⟩
  | succ limit ih =>
    obtain ⟨he, ha, ho, hu⟩ := ih
    refine ⟨fun n => (Tracks.enter _).bind fun _ => ha n, fun n => ?_, fun n levels hls => ?_, fun n => ?_⟩
    · exact (ho n Ascent.levels (List.Subset.refl _)).bind fun target => .taken fun index => assignedIf_tracks (ha n) target index
    · cases levels with
      | nil => exact hu n
      | cons level tighter =>
        obtain ⟨hl, htighter⟩ := List.cons_subset.mp hls
        exact (ho n tighter htighter).bind fun left => chain_tracks hl (ho n tighter htighter) turns left
    · refine .accept?_bind (by decide) (fun C t ts h ht => h.leads_unary ht) (fun operator => ?_) (primary_tracks he)
      exact (hu n).bind fun right => .pure _

end

def TracksExpressions (expression : Parse Node) : Prop :=
  ∀ frames done clause, Tracks (Awaits frames done clause 0) (Read frames done clause 0) expression

def TracksStatements (statement : Parse Node) : Prop :=
  ∀ frames done, Tracks (AtStatement frames done) (Behind frames done) statement

def TracksDeclarations (declaration : Parse (Option Node)) : Prop :=
  ∀ frames done, Tracks (Begins frames done) (Behind frames done) declaration

section

variable {expression statement : Parse Node} (frames : List Frame) (done : List Phrase)

theorem mark_tracks (clause : Clause) (e : Expected) :
    Tracks (Read frames done clause 0) (Shut frames done clause) (expect clause.mark e) :=
  .expect clause.mark_ne_eof (fun _ _ _ h => h.leads_shut) fun _ _ _ h => h.refuses

theorem named_tracks (name : Token) (e : Expected) :
    Tracks (fun C ts => At frames done (.named name) C ts ∧ next? ts ≠ some .equal) (Shut frames done (.var name))
      (expect .semicolon e) :=
  .expect (by decide) (fun _ _ _ h => leads_shut (h.1.step_named h.2).2)
    fun _ _ _ h => refuses_shut (h.1.step_named h.2).1 (h.1.step_named h.2).2

theorem paren_tracks {phase next : Phase} (hp : Parenthesized phase next) (e : Expected) :
    Tracks (At frames done phase) (At frames done next) (expect .leftParen e) :=
  .expect (by decide) (fun _ _ _ h => h.leads_paren hp) fun _ _ _ h => h.refuses_paren hp

theorem body_tracks (hs : TracksStatements statement) (f : Frame) (hf : ∀ mayElse s, ∃ s',
    Config.complete mayElse done s (f :: frames) = Config.complete mayElse done s' frames) :
    Tracks (At (f :: frames) done .statement) (Behind frames done) statement :=
  (hs (f :: frames) done).weaken (fun _ _ h => h.statement) fun _ _ h => h.outer hf

variable (he : TracksExpressions expression)

include he

theorem varDeclaration_tracks : Tracks (At frames done .name) (Complete frames done) (varDeclaration expression) := by
  refine (Tracks.expect (by decide) (fun C t ts h => h.leads_named) fun C t ts h => h.refuses_name).bind fun a => ?_
  refine .of_exists fun name => ?_
  have hshut : ∀ C ts, Shut frames done (.var name) C ts → Complete frames done C ts := fun C ts h => h.cases
  refine .accept?_kind (by decide) (fun C t ts h => h.leads_initializer) (fun _ => ?_) ?_
  · refine (he frames done (.var name)).bind fun value => ?_
    exact ((mark_tracks frames done (.var name) _).behind hshut).bind fun _ => .pure _
  · refine (Tracks.pure Node.absent).bind fun value => ?_
    exact ((named_tracks frames done name _).behind hshut).bind fun _ => .pure _

theorem expressionStatement_tracks :
    Tracks (Awaits frames done .expression 0) (Complete frames done) (expressionStatement expression) := by
  refine (he frames done .expression).bind fun e => ?_
  exact ((mark_tracks frames done .expression _).behind fun C ts h => h.cases).bind fun _ => .pure _

theorem printStatement_tracks :
    Tracks (At frames done (.operand .print [])) (Complete frames done) (printStatement expression) := by
  refine ((he frames done .print).before fun C ts h => h.awaits).bind fun e => ?_
  exact ((mark_tracks frames done .print _).behind fun C ts h => h.cases).bind fun _ => .pure _

theorem forInitializer_tracks : Tracks (At frames done .forInitializer)
    (fun C ts => ∃ i, At frames done (.forCondition i) C ts) (forInitializer expression) := by
  have hvar := varDeclaration_tracks (.forInitializer :: frames) done he
  have hexpression := expressionStatement_tracks (.forInitializer :: frames) done he
  refine .accept?_kind (by decide) (fun C t ts h => h.leads_semicolon) (fun _ => .pure _) ?_
  refine .accept?_kind (by decide) (fun C t ts h => h.1.leads_var) (fun _ => ?_) ?_
  · exact (hvar.behind fun C ts h => h.initializer).bind fun _ => .pure _
  · refine (hexpression.weaken (fun C ts h => ?_) fun C ts h => h.initializer).bind fun _ => .pure _
    exact h.1.1.awaits_initializer h.1.2 h.2

theorem forClause_tracks (clause : Clause) (e : Expected) :
    Tracks (AtClause frames done clause) (Shut frames done clause) (forClause expression clause.mark e) := by
  refine .peek_bind fun t => .ite (fun ht => (Tracks.pure none).bind fun _ => ?_) fun ht => ?_
  · refine .bind (.expect clause.mark_ne_eof (fun C u ts h => h.1.leads) fun C u ts h hu => ?_) fun _ => .pure _
    cases h.2
    exact absurd ht hu
  · refine .bind (.bind ((he frames done clause).before fun C ts h => ?_) fun _ => .pure _) fun _ =>
      (mark_tracks frames done clause e).bind fun _ => .pure _
    refine h.1.awaits fun hk => ht ?_
    rw [next?, h.2] at hk
    exact Option.some.inj hk

variable (hs : TracksStatements statement)

include hs

theorem forStatement_tracks :
    Tracks (At frames done .parenOfFor) (Behind frames done) (forStatement expression statement) := by
  refine (paren_tracks frames done (fun _ _ => ⟨rfl, fun _ => rfl⟩) _).bind fun _ => ?_
  refine (forInitializer_tracks frames done he).bind fun _ => .of_exists fun i => ?_
  refine ((forClause_tracks frames done he (.forCondition i) _).weaken (fun C ts h => h.condition)
    fun C ts h => h.cases).bind fun _ => .of_exists fun s => ?_
  refine ((forClause_tracks frames done he (.forIncrement i s) _).weaken (fun C ts h => h.increment)
    fun C ts h => h.cases).bind fun _ => .of_exists fun e => ?_
  exact (body_tracks frames done hs (.forBody i s e) fun _ b => ⟨.forLoop i s e b, rfl⟩).bind fun _ => .pure _

theorem whileStatement_tracks :
    Tracks (At frames done .parenOfWhile) (Behind frames done) (whileStatement expression statement) := by
  refine (paren_tracks frames done (fun _ _ => ⟨rfl, fun _ => rfl⟩) _).bind fun _ => ?_
  refine ((he frames done .whileCondition).before fun C ts h => h.awaits).bind fun _ => ?_
  refine ((mark_tracks frames done .whileCondition _).behind fun C ts h => h.cases).bind fun _ => .of_exists fun e => ?_
  exact (body_tracks frames done hs (.whileBody e) fun _ b => ⟨.loop e b, rfl⟩).bind fun _ => .pure _

theorem ifStatement_tracks :
    Tracks (At frames done .parenOfIf) (Behind frames done) (ifStatement expression statement) := by
  refine (paren_tracks frames done (fun _ _ => ⟨rfl, fun _ => rfl⟩) _).bind fun _ => ?_
  refine ((he frames done .ifCondition).before fun C ts h => h.awaits).bind fun _ => ?_
  refine ((mark_tracks frames done .ifCondition _).behind fun C ts h => h.cases).bind fun _ => .of_exists fun e => ?_
  refine ((hs (.thenBranch e :: frames) done).before fun C ts h => h.statement).bind fun _ => ?_
  refine .accept?_kind (by decide) (fun C t ts h => h.leads_else) (fun _ => ?_) ?_
  · -- an `else` is taken by the innermost `if`, whose branch is the statement just read
    refine .of_exists fun a => ?_
    exact (body_tracks frames done hs (.elseBranch e a) fun _ b => ⟨.branch e a b, rfl⟩).bind fun _ => .pure _
  · exact (Tracks.pure _).before fun C ts h => h.1.after_if h.2

end

theorem block_tracks {turns : Nat} {declaration : Parse (Option Node)} (hd : TracksDeclarations declaration)
    (frames : List Frame) (done : List Phrase) :
    Tracks (At (.block [] :: frames) done .declaration) (Complete frames done) (block turns declaration) := by
  have hpart : Tracks (Without [.rightBrace, .eof] fun C ts => ∃ before, AtDeclaration (.block before :: frames) done C ts)
      (fun C ts => ∃ before, AtDeclaration (.block before :: frames) done C ts) declaration := by
    refine (Tracks.exists_ fun before => hd (.block before :: frames) done).weaken (fun C ts h => ?_) fun C ts h => ?_
    · obtain ⟨⟨before, h⟩, hne⟩ := h
      exact ⟨before, h.begins (fun hk => hne _ hk (by decide)) (.inr fun hk => hne _ hk (by decide))⟩
    · obtain ⟨before, h⟩ := h
      obtain ⟨s, h⟩ := h.atDeclaration (fun s => .block (s :: before) :: frames) (fun _ => done) fun _ _ => rfl
      exact ⟨s :: before, h⟩
  refine ((hpart.untilKind turns []).before fun C ts h => ?_).bind fun _ => .bind ?_ fun _ => .pure _
  · subst h
    exact ⟨[], rfl, .inl rfl⟩
  -- no other token is next behind the declarations, so an end token is what is refused
  · refine .expect (by decide) (fun C t ts h ht => ?_) fun C t ts h ht => ?_
    · obtain ⟨⟨before, h⟩, -⟩ := h
      exact h.leads_brace ht
    · obtain ⟨⟨before, h⟩, k, hk, hnext⟩ := h
      refine h.refuses_end ?_
      cases hnext
      simpa [ht] using hk

theorem statements_track (turns limit : Nat) :
    TracksStatements (statement turns limit) ∧ TracksDeclarations (declaration turns limit) := by
  induction limit with
  | zero => exact ⟨fun _ _ => .tooDeep, fun _ _ => .tooDeep⟩
  | succ limit ih =>
    obtain ⟨hs, hd⟩ := ih
    have he : TracksExpressions (expression turns limit) := fun frames done clause =>
      (expressions_track frames done clause turns limit).1 0
    refine ⟨fun frames done => (Tracks.enter _).bind fun _ => ?_,
      fun frames done => (Tracks.enter _).bind fun _ => .recover ?_⟩
    · have hkeyword (k : Kind) (phase : Phase) (fs : List Frame)
          (hk : ∀ t : Token, t.kind = k → Config.stepStatement ⟨.declaration, frames, done⟩ t = some ⟨phase, fs, done⟩)
          (C : Config) (t : Token) (ts : List Token) (h : AtStatement frames done C (t :: ts)) (ht : t.kind ∈ [k]) :
          C.Leads t (At fs done phase) ts := h.leads (hk t (List.mem_singleton.mp ht))
      refine Tracks.before (P := Without [] (AtStatement frames done)) ?_ fun C ts h => ⟨h, by simp⟩
      refine .accept?_next (by decide) (hkeyword _ .parenOfFor frames fun t ht => by simp only [Config.stepStatement, ht])
        (fun _ => forStatement_tracks frames done he hs) ?_
      refine .accept?_next (by decide) (hkeyword _ .parenOfIf frames fun t ht => by simp only [Config.stepStatement, ht])
        (fun _ => ifStatement_tracks frames done he hs) ?_
      refine .accept?_next (by decide) (hkeyword _ (.operand .print []) frames fun t ht => by
        simp only [Config.stepStatement, ht]) (fun _ => (printStatement_tracks frames done he).behind fun C ts h => h.behind) ?_
      refine .accept?_next (by decide) (hkeyword _ .parenOfWhile frames fun t ht => by simp only [Config.stepStatement, ht])
        (fun _ => whileStatement_tracks frames done he hs) ?_
      refine .accept?_next (by decide) (hkeyword _ .declaration (.block [] :: frames) fun t ht => by
        simp only [Config.stepStatement, ht]) (fun _ => (block_tracks hd frames done).behind fun C ts h => h.behind) ?_
      refine (expressionStatement_tracks frames done he).weaken (fun C ts h => ?_) fun C ts h => h.behind
      have hall : ∀ k ∈ [Kind.printWord, .leftBrace, .ifWord, .whileWord, .forWord],
          k ∈ [Kind.forWord, .ifWord, .printWord, .whileWord, .leftBrace] := by decide
      exact h.1.awaits fun k hk hm => h.2 k hk (hall k hm)
    · refine .accept?_kind (by decide) (fun C t ts h => h.leads_name) (fun _ => ?_) ?_
      · exact (varDeclaration_tracks frames done he).behind fun C ts h => h.behind
      · exact (hs frames done).before fun C ts h => h.1.statement h.2

theorem program_locates {limit : Nat} {tokens : List Token} {ns : List Node} {c : Cursor}
    (h : program limit tokens = .ok ns c) (hdeep : ∀ x ∈ c.complaints.toList, x.problem ≠ .nestingTooDeep)
    (hfault : ∃ x ∈ c.complaints.toList, x.problem ≠ .invalidAssignmentTarget) :
    (Cursor.start tokens).Locates .start c := by
  have hpart : Tracks (Without [.eof] fun C ts => ∃ done, AtDeclaration [] done C ts)
      (fun C ts => ∃ done, AtDeclaration [] done C ts) (declaration tokens.length limit) := by
    refine (Tracks.exists_ fun done => (statements_track tokens.length limit).2 [] done).weaken (fun C ts h => ?_)
      fun C ts h => ?_
    · obtain ⟨⟨done, h⟩, hne⟩ := h
      exact ⟨done, h.begins (fun hk => hne _ hk (by decide)) (.inl rfl)⟩
    · obtain ⟨done, h⟩ := h
      obtain ⟨s, h⟩ := h.atDeclaration (fun _ => []) (fun s => s :: done) fun _ _ => rfl
      exact ⟨s :: done, h⟩
  have hstart : ∃ done, AtDeclaration [] done .start tokens := ⟨[], rfl, .inl rfl⟩
  have htracks := (hpart.untilKind tokens.length []).tracks .start (Cursor.start tokens) hstart
  change Stops (program limit tokens) ∨ (Cursor.start tokens).Locates .start (final (program limit tokens)) ∨ _ at htracks
  rw [h] at htracks
  rcases htracks with ((⟨d, hd⟩ | ⟨-, x, hx, hp⟩) | ⟨d, hd⟩) | hl | ⟨ns', d, C', hd, hfollows, -⟩
  · cases hd
  · exact absurd hp (hdeep x hx)
  · cases hd
  · exact hl
  · have hdc : program limit tokens = .ok ns' d := hd
    rw [h] at hdc
    cases hdc
    obtain ⟨_, cs, hcs, hspared, -⟩ := hfollows.spares
    obtain ⟨x, hx, hne⟩ := hfault
    rw [hcs] at hx
    exact absurd (hspared x (by simpa [Cursor.start] using hx)) hne

end Lox.Descent
