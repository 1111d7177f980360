import Lox.Proofs.Ascent.Demand

namespace Lox.Ascent

open Grammar

section

variable {e t : Token} {c : Config} {frames : List Frame} {done ps : List Phrase} {ts us rest : List Token}
  {s p : Phrase}

theorem stated_iff_print (ht : t.kind = .printWord) :
    Stated e frames done (t :: ts) ps ↔ Demanded 0 (Closed e frames done ps .print) ts := by
  constructor
  · rintro ⟨s, rest, hs, hc⟩
    cases hs with
    | print _ h hw => exact ⟨_, _, h, _, _, rfl, hw, hc⟩
    | expressed h => exact (not_mem_opening h ht (by decide)).elim
    | block hk | ifOnly hk | ifElse hk | loop hk | forLoop hk => simp [ht] at hk
  · rintro ⟨p, mid, h, w, us, rfl, hw, hc⟩
    exact ⟨_, us, .print ht h hw, hc⟩

theorem stated_iff_block (ht : t.kind = .leftBrace) :
    Stated e frames done (t :: ts) ps ↔ Declared e (.block [] :: frames) done ts ps := by
  rw [declared_block_iff]
  constructor
  · rintro ⟨s, rest, hs, hc⟩
    cases hs with
    | block _ h hr =>
      obtain ⟨qs, rfl⟩ := h.eq_block
      exact ⟨qs, _, rest, h, hr, hc⟩
    | expressed h => exact (not_mem_opening h ht (by decide)).elim
    | print hk | ifOnly hk | ifElse hk | loop hk | forLoop hk => simp [ht] at hk
  · rintro ⟨qs, r, us, h, hr, hc⟩
    exact ⟨_, us, .block ht h hr, hc⟩

theorem stated_iff_if (ht : t.kind = .ifWord) : Stated e frames done (t :: ts) ps ↔
    ∃ l us, ts = l :: us ∧ l.kind = .leftParen ∧ Demanded 0 (Closed e frames done ps .ifCondition) us := by
  constructor
  · rintro ⟨s, rest, hs, hc⟩
    cases hs with
    | ifOnly _ hl hcond hr hs hnext =>
      refine ⟨_, _, rfl, hl, _, _, hcond, _, _, rfl, hr, _, _, hs, ?_⟩
      exact .inl ⟨hnext, hc⟩
    | ifElse _ hl hcond hr hs hw hs' =>
      refine ⟨_, _, rfl, hl, _, _, hcond, _, _, rfl, hr, _, _, hs, ?_⟩
      exact .inr ⟨_, _, _, _, rfl, hw, hs', hc⟩
    | expressed h => exact (not_mem_opening h ht (by decide)).elim
    | print hk | block hk | loop hk | forLoop hk => simp [ht] at hk
  · rintro ⟨l, us, rfl, hl, p, mid, hcond, r, vs, rfl, hr, s, rest, hs, ⟨hnext, hc⟩ | ⟨w, ws, rest', b, rfl, hw, hs', hc⟩⟩
    · exact ⟨_, rest, .ifOnly ht hl hcond hr hs hnext, hc⟩
    · exact ⟨_, rest', .ifElse ht hl hcond hr hs hw hs', hc⟩

theorem stated_iff_while (ht : t.kind = .whileWord) : Stated e frames done (t :: ts) ps ↔
    ∃ l us, ts = l :: us ∧ l.kind = .leftParen ∧ Demanded 0 (Closed e frames done ps .whileCondition) us := by
  constructor
  · rintro ⟨s, rest, hs, hc⟩
    cases hs with
    | loop _ hl hcond hr hs => exact ⟨_, _, rfl, hl, _, _, hcond, _, _, rfl, hr, _, _, hs, hc⟩
    | expressed h => exact (not_mem_opening h ht (by decide)).elim
    | print hk | block hk | ifOnly hk | ifElse hk | forLoop hk => simp [ht] at hk
  · rintro ⟨l, us, rfl, hl, p, mid, hcond, r, vs, rfl, hr, s, rest, hs, hc⟩
    exact ⟨_, rest, .loop ht hl hcond hr hs, hc⟩

theorem stated_iff_for (ht : t.kind = .forWord) : Stated e frames done (t :: ts) ps ↔
    ∃ l us, ts = l :: us ∧ l.kind = .leftParen ∧ Initialized e frames done us ps := by
  constructor
  · rintro ⟨s, rest, hs, hc⟩
    cases hs with
    | forLoop _ hl hi hcond hw hinc hr hb =>
      exact ⟨_, _, rfl, hl, _, _, hi, _, _, _, hcond, hw, _, _, _, hinc, hr, _, _, hb, hc⟩
    | expressed h => exact (not_mem_opening h ht (by decide)).elim
    | print hk | block hk | ifOnly hk | ifElse hk | loop hk => simp [ht] at hk
  · rintro ⟨l, us, rfl, hl, i, mid, hi, w, vs, cond, hcond, hw, r, ws, inc, hinc, hr, b, rest, hb, hc⟩
    exact ⟨_, rest, .forLoop ht hl hi hcond hw hinc hr hb, hc⟩

theorem demanded_expression_iff : Demanded 0 (Closed e frames done ps .expression) ts ↔
    ∃ rest p, Derives true .expressionStatement ts rest p ∧ Continues e frames p done rest ps := by
  constructor
  · rintro ⟨p, mid, h, w, us, rfl, hw, hc⟩
    exact ⟨us, _, .expressionStatement h hw, hc⟩
  · rintro ⟨rest, p, h, hc⟩
    cases h with
    | expressionStatement h hw => exact ⟨_, _, h, _, _, rfl, hw, hc⟩

theorem stated_iff_expression (ht : t.kind ∉ [.printWord, .leftBrace, .ifWord, .whileWord, .forWord]) :
    Stated e frames done (t :: ts) ps ↔ Demanded 0 (Closed e frames done ps .expression) (t :: ts) := by
  rw [demanded_expression_iff]
  constructor
  · rintro ⟨s, rest, hs, hc⟩
    cases hs with
    | expressed h => exact ⟨rest, s, h, hc⟩
    | print hk | block hk | ifOnly hk | ifElse hk | loop hk | forLoop hk => simp [hk] at ht
  · rintro ⟨rest, p, h, hc⟩
    exact ⟨p, rest, .expressed h, hc⟩

theorem stated_iff_stepStatement : Stated e c.frames c.done (t :: ts) ps ↔
    ∃ c', c.stepStatement t = some c' ∧ Demands e c' ts ps := by
  unfold Config.stepStatement
  split
  · rw [exists_some_iff]
    exact stated_iff_print ‹_›
  · rw [exists_some_iff]
    exact stated_iff_block ‹_›
  · rw [exists_some_iff]
    exact stated_iff_if ‹_›
  · rw [exists_some_iff]
    exact stated_iff_while ‹_›
  · rw [exists_some_iff]
    exact stated_iff_for ‹_›
  · rename_i hprint hblock hif hwhile hfor
    rw [stated_iff_expression (by simpa using ⟨hprint, hblock, hif, hwhile, hfor⟩)]
    have ho : Ordered [] := trivial
    exact demanded_iff_stepOperand ho

theorem declared_iff_var (he : e.kind = .eof) (ht : t.kind = .varWord) :
    Declared e frames done (t :: ts) ps ↔ Named e frames done ts ps := by
  constructor
  · rintro (h | ⟨s, rest, hs, hc⟩)
    · split at h
      · cases h.1
        simp [he] at ht
      · obtain ⟨r, us, heq, hr, -⟩ := h
        cases heq
        simp [hr] at ht
      · exact h.elim
    · cases hs with
      | varDeclared h => exact ⟨t, rest, s, ht, h, hc⟩
      | stated h =>
        obtain ⟨u, us, heq, hu⟩ := h.statement_begins
        cases heq
        simp [ht] at hu
  · rintro ⟨v, rest, p, hv, h, hc⟩
    refine .inr ⟨p, rest, .varDeclared ?_, hc⟩
    cases h with
    | varAbsent _ hn hw => exact .varAbsent ht hn hw
    | varInitialized _ hn hq h hw => exact .varInitialized ht hn hq h hw

theorem declared_iff_rightBrace {before : List Phrase} (ht : t.kind = .rightBrace) :
    Declared e (.block before :: frames) done (t :: ts) ps ↔
      Continues e frames (.block before.reverse) done ts ps := by
  constructor
  · rintro (⟨r, us, heq, -, hc⟩ | ⟨s, rest, hs, -⟩)
    · cases heq
      exact hc
    · obtain ⟨u, us, heq, hu⟩ := hs.declaration_begins
      cases heq
      simp [ht] at hu
  · exact fun hc => .inl ⟨t, ts, rfl, ht, hc⟩

theorem declared_iff_stated (he : e.kind = .eof) (hne : t.kind ≠ .eof) (hv : t.kind ≠ .varWord)
    (hb : ∀ before fs, t.kind = .rightBrace → frames = .block before :: fs → False) :
    Declared e frames done (t :: ts) ps ↔ Stated e frames done (t :: ts) ps := by
  constructor
  · rintro (h | ⟨s, rest, hs, hc⟩)
    · split at h
      · cases h.1
        exact absurd he hne
      · obtain ⟨r, us, heq, hr, -⟩ := h
        cases heq
        exact (hb _ _ hr rfl).elim
      · exact h.elim
    · cases hs with
      | varDeclared h =>
        obtain ⟨u, us, heq, hu⟩ := h.exists_varWord
        cases heq
        exact absurd hu hv
      | stated h => exact ⟨s, rest, h, hc⟩
  · rintro ⟨s, rest, hs, hc⟩
    exact .inr ⟨s, rest, .stated hs, hc⟩

theorem declared_iff_stepDeclaration (he : e.kind = .eof) (hne : t.kind ≠ .eof) :
    Declared e c.frames c.done (t :: ts) ps ↔ ∃ c', c.stepDeclaration t = some c' ∧ Demands e c' ts ps := by
  unfold Config.stepDeclaration
  split
  · rw [exists_some_iff]
    exact declared_iff_var he ‹_›
  · rename_i before frames hk hframes
    rw [exists_some_iff, demands_complete_iff (.inl rfl), hframes]
    exact declared_iff_rightBrace hk
  · rename_i hv hb
    rw [declared_iff_stated he hne hv fun before fs => hb before fs]
    exact stated_iff_stepStatement

theorem named_iff (ht : t.kind = .identifier) : Named e frames done (t :: ts) ps ↔
    Closed e frames done ps (.var t) .absent ts ∨
      ∃ q us, ts = q :: us ∧ q.kind = .equal ∧ Demanded 0 (Closed e frames done ps (.var t)) us := by
  constructor
  · rintro ⟨v, rest, p, -, h, hc⟩
    cases h with
    | varAbsent _ _ hw => exact .inl ⟨_, _, rfl, hw, hc⟩
    | varInitialized _ _ hq h hw => exact .inr ⟨_, _, rfl, hq, _, _, h, _, _, rfl, hw, hc⟩
  · have hv : (⟨.varWord, .nil, .nil, 0⟩ : Token).kind = .varWord := rfl
    rintro (⟨w, us, rfl, hw, hc⟩ | ⟨q, us, rfl, hq, p, mid, h, w, vs, rfl, hw, hc⟩)
    · exact ⟨_, us, _, hv, .varAbsent hv ht hw, hc⟩
    · exact ⟨_, vs, _, hv, .varInitialized hv ht hq h hw, hc⟩

theorem identifier_of_named (h : Named e frames done (t :: ts) ps) : t.kind = .identifier := by
  obtain ⟨v, rest, p, -, h, -⟩ := h
  cases h with
  | varAbsent _ hn _ => exact hn
  | varInitialized _ hn _ _ _ => exact hn

theorem initialized_iff_semicolon (ht : t.kind = .semicolon) :
    Initialized e frames done (t :: ts) ps ↔ Conditioned e frames done .absent ts ps := by
  constructor
  · rintro ⟨i, rest, h, hc⟩
    cases h with
    | initializerAbsent => exact hc
    | initializerVar h =>
      obtain ⟨u, us, heq, hu⟩ := h.exists_varWord
      cases heq
      simp [ht] at hu
    | initializerExpression h => exact (not_mem_opening h ht (by decide)).elim
  · exact fun hc => ⟨_, ts, .initializerAbsent ht, hc⟩

theorem initialized_iff_var (ht : t.kind = .varWord) :
    Initialized e frames done (t :: ts) ps ↔ Named e (.forInitializer :: frames) done ts ps := by
  simp only [Named, continues_forInitializer_iff]
  constructor
  · rintro ⟨i, rest, h, hc⟩
    cases h with
    | initializerAbsent hw => simp [ht] at hw
    | initializerVar h => exact ⟨t, rest, i, ht, h, hc⟩
    | initializerExpression h => exact (not_mem_opening h ht (by decide)).elim
  · rintro ⟨v, rest, p, hv, h, hc⟩
    refine ⟨p, rest, .initializerVar ?_, hc⟩
    cases h with
    | varAbsent _ hn hw => exact .varAbsent ht hn hw
    | varInitialized _ hn hq h hw => exact .varInitialized ht hn hq h hw

theorem initialized_iff_expression (hw : t.kind ≠ .semicolon) (hv : t.kind ≠ .varWord) :
    Initialized e frames done (t :: ts) ps ↔
      Demanded 0 (Closed e (.forInitializer :: frames) done ps .expression) (t :: ts) := by
  simp only [demanded_expression_iff, continues_forInitializer_iff]
  constructor
  · rintro ⟨i, rest, h, hc⟩
    cases h with
    | initializerAbsent hw' => exact absurd hw' hw
    | initializerVar h =>
      obtain ⟨u, us, heq, hu⟩ := h.exists_varWord
      cases heq
      exact absurd hu hv
    | initializerExpression h => exact ⟨rest, i, h, hc⟩
  · rintro ⟨rest, i, h, hc⟩
    exact ⟨i, rest, .initializerExpression h, hc⟩

theorem clause_iff_of_not_mem (ht : t.kind ∉ opening) : Derives true .clause (t :: ts) rest p ↔
    rest = t :: ts ∧ p = .absent := by
  constructor
  · intro h
    cases h with
    | clauseAbsent => exact ⟨rfl, rfl⟩
    | clausePresent h =>
      obtain ⟨u, us, heq, hu⟩ := h.exists_opening (.inl rfl)
      cases heq
      exact absurd hu ht
  · rintro ⟨rfl, rfl⟩
    exact .clauseAbsent

theorem conditioned_iff_semicolon {i : Phrase} (ht : t.kind = .semicolon) :
    Conditioned e frames done i (t :: ts) ps ↔ Incremented e frames done i .absent ts ps := by
  simp only [Conditioned, clause_iff_of_not_mem (t := t) (ht ▸ by decide)]
  constructor
  · rintro ⟨w, us, c, ⟨heq, rfl⟩, -, h⟩
    cases heq
    exact h
  · exact fun h => ⟨t, ts, _, ⟨rfl, rfl⟩, ht, h⟩

theorem conditioned_iff_expression {i : Phrase} (ht : t.kind ≠ .semicolon) :
    Conditioned e frames done i (t :: ts) ps ↔ Demanded 0 (Closed e frames done ps (.forCondition i)) (t :: ts) := by
  constructor
  · rintro ⟨w, us, c, h, hw, hi⟩
    cases h with
    | clauseAbsent => exact absurd hw ht
    | clausePresent h => exact ⟨c, _, h, w, us, rfl, hw, hi⟩
  · rintro ⟨p, mid, h, w, us, rfl, hw, hi⟩
    exact ⟨w, us, p, .clausePresent h, hw, hi⟩

theorem incremented_iff_rightParen {i cond : Phrase} (ht : t.kind = .rightParen) :
    Incremented e frames done i cond (t :: ts) ps ↔ Stated e (.forBody i cond .absent :: frames) done ts ps := by
  simp only [Incremented, clause_iff_of_not_mem (t := t) (ht ▸ by decide)]
  constructor
  · rintro ⟨w, us, c, ⟨heq, rfl⟩, -, h⟩
    cases heq
    exact h
  · exact fun h => ⟨t, ts, _, ⟨rfl, rfl⟩, ht, h⟩

theorem incremented_iff_expression {i cond : Phrase} (ht : t.kind ≠ .rightParen) :
    Incremented e frames done i cond (t :: ts) ps ↔
      Demanded 0 (Closed e frames done ps (.forIncrement i cond)) (t :: ts) := by
  constructor
  · rintro ⟨w, us, c, h, hw, hi⟩
    cases h with
    | clauseAbsent => exact absurd hw ht
    | clausePresent h => exact ⟨c, _, h, w, us, rfl, hw, hi⟩
  · rintro ⟨p, mid, h, w, us, rfl, hw, hi⟩
    exact ⟨w, us, p, .clausePresent h, hw, hi⟩

end

def Plain (frames : List Frame) : Prop :=
  .forInitializer ∉ frames

def Clause.Initializes : Clause → Prop
  | .expression | .var _ => True
  | _ => False

def Phase.Initializes : Phase → Prop
  | .name | .named _ => True
  | .operand clause _ | .operator clause _ _ => clause.Initializes
  | _ => False

def Phase.Ordered : Phase → Prop
  | .operand _ pending | .operator _ pending _ => Ascent.Ordered pending
  | _ => True

def Placed (initializes : Prop) (frames : List Frame) : Prop :=
  Plain frames ∨ initializes ∧ ∃ rest, frames = .forInitializer :: rest ∧ Plain rest

structure Valid (c : Config) : Prop where
  ordered : c.phase.Ordered
  placed : Placed c.phase.Initializes c.frames

section

variable {c c' : Config} {t : Token} {clause : Clause} {pending : List Pending} {p : Phrase}

theorem Plain.tail {f : Frame} {frames : List Frame} (h : Plain (f :: frames)) : Plain frames :=
  fun hm => h (List.mem_cons_of_mem f hm)

theorem Plain.cons {f : Frame} {frames : List Frame} (h : Plain frames) (hf : f ≠ .forInitializer) :
    Plain (f :: frames) := by
  intro hm
  rcases List.mem_cons.mp hm with he | hm
  · exact hf he.symm
  · exact h hm

theorem complete_plain (mayElse : Bool) (done : List Phrase) :
    ∀ frames s, Plain frames → Plain (Config.complete mayElse done s frames).frames ∧
      ((Config.complete mayElse done s frames).phase = .declaration ∨
        mayElse = true ∧ ∃ c a, (Config.complete mayElse done s frames).phase = .possibleElse c a) := by
  intro frames
  induction frames with
  | nil => exact fun s h => ⟨h, .inl rfl⟩
  | cons f frames ih =>
    intro s h
    cases f with
    | block before => exact ⟨h.tail.cons (by simp), .inl rfl⟩
    | thenBranch cond =>
      rw [Config.complete]
      split
      · exact ⟨h.tail, .inr ⟨‹_›, cond, s, rfl⟩⟩
      · exact ih _ h.tail
    | elseBranch cond a => exact ih _ h.tail
    | whileBody cond => exact ih _ h.tail
    | forInitializer => exact absurd (List.mem_cons_self) h
    | forBody i cond inc => exact ih _ h.tail

theorem complete_valid {mayElse : Bool} {done : List Phrase} {frames : List Frame} {s : Phrase} {initializes : Prop}
    (h : Placed initializes frames) : Valid (Config.complete mayElse done s frames) := by
  rcases h with h | ⟨-, rest, rfl, h⟩
  · obtain ⟨hplain, hphase | ⟨-, c, a, hphase⟩⟩ := complete_plain mayElse done frames s h
    · exact ⟨by simp [hphase, Phase.Ordered], .inl hplain⟩
    · exact ⟨by simp [hphase, Phase.Ordered], .inl hplain⟩
  · exact ⟨trivial, .inl h⟩

theorem stepOperand_valid (ho : Ordered pending) (hp : Placed clause.Initializes c.frames)
    (h : c.stepOperand clause pending t = some c') : Valid c' := by
  unfold Config.stepOperand at h
  dsimp only at h
  split at h <;> cases h <;> exact ⟨ho, hp⟩

theorem close_valid (hp : Placed clause.Initializes c.frames) (h : c.close clause p t = some c') : Valid c' := by
  have hplain : ¬ clause.Initializes → Plain c.frames := fun hn => hp.resolve_right fun hi => hn hi.1
  unfold Config.close at h
  split at h <;> cases h
  · exact complete_valid hp
  · exact complete_valid hp
  · exact complete_valid hp
  · exact ⟨trivial, .inl ((hplain (by simp [Clause.Initializes])).cons (by simp))⟩
  · exact ⟨trivial, .inl ((hplain (by simp [Clause.Initializes])).cons (by simp))⟩
  · exact ⟨trivial, .inl (hplain (by simp [Clause.Initializes]))⟩
  · exact ⟨trivial, .inl ((hplain (by simp [Clause.Initializes])).cons (by simp))⟩

theorem stepOperator_valid (ho : Ordered pending) (hp : Placed clause.Initializes c.frames)
    (h : c.stepOperator clause pending p t = some c') : Valid c' := by
  unfold Config.stepOperator at h
  split at h
  · rename_i l hf
    obtain ⟨ho', hlow⟩ := ordered_reduce (q := p) l.rank ho
    cases h
    exact ⟨⟨(Level.find?_eq_some hf).1, hlow, ho'⟩, hp⟩
  · split at h
    · obtain ⟨ho', hlow⟩ := ordered_reduce (q := p) 0 ho
      cases h
      exact ⟨⟨Nat.le_zero.mp hlow, ho'⟩, hp⟩
    · have ho' := (ordered_reduceAll (q := p) ho).1
      split at h
      · rename_i hr
        split at h <;> cases h
        rw [hr] at ho'
        exact ⟨ho', hp⟩
      · exact close_valid hp h

theorem stepStatement_valid (hp : Plain c.frames) (h : c.stepStatement t = some c') : Valid c' := by
  unfold Config.stepStatement at h
  split at h
  · cases h
    exact ⟨trivial, .inl hp⟩
  · cases h
    exact ⟨trivial, .inl (hp.cons (by simp))⟩
  · cases h
    exact ⟨trivial, .inl hp⟩
  · cases h
    exact ⟨trivial, .inl hp⟩
  · cases h
    exact ⟨trivial, .inl hp⟩
  · have ho : Ordered [] := trivial
    exact stepOperand_valid ho (.inl hp) h

theorem stepDeclaration_valid (hp : Plain c.frames) (h : c.stepDeclaration t = some c') : Valid c' := by
  unfold Config.stepDeclaration at h
  split at h
  · cases h
    exact ⟨trivial, .inl hp⟩
  · rename_i hframes
    cases h
    rw [hframes] at hp
    have hplaced : Placed False _ := .inl hp.tail
    exact complete_valid hplaced
  · exact stepStatement_valid hp h

theorem withoutElse_of_possibleElse {cond a : Phrase} (h : c.phase = .possibleElse cond a) :
    c.withoutElse = Config.complete false c.done (.branch cond a .absent) c.frames := by
  unfold Config.withoutElse
  rw [h]

theorem withoutElse_valid {cond a : Phrase} (hv : Valid c) (h : c.phase = .possibleElse cond a) :
    Plain c.withoutElse.frames ∧ c.withoutElse.phase = .declaration := by
  have hplain : Plain c.frames := hv.placed.resolve_right fun hi => by simp [h, Phase.Initializes] at hi
  rw [withoutElse_of_possibleElse h]
  obtain ⟨hp, hphase⟩ := complete_plain false c.done c.frames (.branch cond a .absent) hplain
  exact ⟨hp, hphase.resolve_right fun h => by simp at h⟩

theorem step_valid (hv : Valid c) (h : c.step t = some c') : Valid c' := by
  obtain ⟨ho, hp⟩ := hv
  have hplain : ¬ c.phase.Initializes → Plain c.frames := fun hn => hp.resolve_right fun hi => hn hi.1
  have hnil : Ordered [] := trivial
  unfold Config.step at h
  split at h
  · rename_i hphase
    exact stepDeclaration_valid (hplain (by simp [hphase, Phase.Initializes])) h
  · rename_i hphase
    exact stepStatement_valid (hplain (by simp [hphase, Phase.Initializes])) h
  · rename_i hphase
    rw [hphase] at hp
    split at h <;> cases h
    exact ⟨trivial, hp⟩
  · rename_i name hphase
    have hp : Placed (Clause.var name).Initializes c.frames := by rwa [hphase] at hp
    split at h
    · cases h
      exact ⟨hnil, hp⟩
    · exact close_valid hp h
  · rename_i hphase
    have hplain := hplain (by simp [hphase, Phase.Initializes])
    unfold Config.stepParen at h
    split at h <;> cases h
    exact ⟨hnil, .inl hplain⟩
  · rename_i hphase
    have hplain := hplain (by simp [hphase, Phase.Initializes])
    unfold Config.stepParen at h
    split at h <;> cases h
    exact ⟨hnil, .inl hplain⟩
  · rename_i hphase
    have hplain := hplain (by simp [hphase, Phase.Initializes])
    unfold Config.stepParen at h
    split at h <;> cases h
    exact ⟨trivial, .inl hplain⟩
  · rename_i hphase
    have hplain := hplain (by simp [hphase, Phase.Initializes])
    split at h
    · cases h
      exact ⟨trivial, .inl hplain⟩
    · cases h
      exact ⟨trivial, .inr ⟨trivial, _, rfl, hplain⟩⟩
    · have hp : Placed Clause.expression.Initializes (.forInitializer :: c.frames) := .inr ⟨trivial, _, rfl, hplain⟩
      exact stepOperand_valid hnil hp h
  · rename_i hphase
    have hplain := hplain (by simp [hphase, Phase.Initializes])
    split at h
    · exact close_valid (.inl hplain) h
    · exact stepOperand_valid hnil (.inl hplain) h
  · rename_i hphase
    have hplain := hplain (by simp [hphase, Phase.Initializes])
    split at h
    · exact close_valid (.inl hplain) h
    · exact stepOperand_valid hnil (.inl hplain) h
  · rename_i hphase
    rw [hphase] at ho hp
    exact stepOperand_valid ho hp h
  · rename_i hphase
    rw [hphase] at ho hp
    exact stepOperator_valid ho hp h
  · rename_i hphase
    split at h
    · cases h
      have hplain := hplain (by simp [hphase, Phase.Initializes])
      exact ⟨trivial, .inl (hplain.cons (by simp))⟩
    · exact stepDeclaration_valid (withoutElse_valid ⟨ho, hp⟩ hphase).1 h

end

section

variable {e t : Token} {c : Config} {ts : List Token} {ps : List Phrase}

theorem stepParen_iff (next : Phase) : (∃ l us, t :: ts = l :: us ∧ l.kind = .leftParen ∧
    PhaseDemands e c.frames c.done ps next us) ↔ ∃ c', c.stepParen next t = some c' ∧ Demands e c' ts ps := by
  rw [exists_cons_iff, Config.stepParen]
  by_cases ht : t.kind = .leftParen
  · rw [if_pos ht, exists_some_iff]
    exact ⟨fun h => h.2, fun h => ⟨ht, h⟩⟩
  · rw [if_neg ht]
    exact ⟨fun h => absurd h.1 ht, fun ⟨_, h, _⟩ => by cases h⟩

theorem demands_possibleElse_iff {cond a : Phrase} (hv : Valid c) (hphase : c.phase = .possibleElse cond a)
    (hnext : next? ts ≠ some .elseWord) :
    Demands e c ts ps ↔ Declared e c.withoutElse.frames c.withoutElse.done ts ps := by
  have hdone : Demands e c.withoutElse ts ps ↔ Continues e c.frames (.branch cond a .absent) c.done ts ps := by
    rw [withoutElse_of_possibleElse hphase]
    exact demands_complete_iff (.inr hnext) _ _
  rw [Demands, (withoutElse_valid hv hphase).2] at hdone
  rw [Demands, hphase]
  refine Iff.trans continues_thenBranch_iff (Iff.trans ?_ hdone.symm)
  constructor
  · rintro (⟨-, h⟩ | ⟨w, us, rfl, hw, -⟩)
    · exact h
    · exact absurd (by simp [next?, hw]) hnext
  · exact fun h => .inl ⟨hnext, h⟩

theorem demands_iff_step (hv : Valid c) (he : e.kind = .eof) (hne : t.kind ≠ .eof) :
    Demands e c (t :: ts) ps ↔ ∃ c', c.step t = some c' ∧ Demands e c' ts ps := by
  have hnil : Ordered [] := trivial
  have ho := hv.ordered
  unfold Demands Config.step
  cases hphase : c.phase with
  | declaration => exact declared_iff_stepDeclaration he hne
  | statement => exact stated_iff_stepStatement
  | name =>
    dsimp only
    by_cases hn : t.kind = .identifier
    · rw [if_pos hn, exists_some_iff]
      exact named_iff hn
    · rw [if_neg hn]
      exact ⟨fun h => absurd (identifier_of_named h) hn, fun ⟨_, h, _⟩ => by cases h⟩
  | named n =>
    simp only [PhaseDemands, exists_cons_iff]
    by_cases hq : t.kind = .equal
    · rw [if_pos hq, exists_some_iff]
      refine ⟨fun h => h.elim (fun h => ?_) fun h => h.2, fun h => .inr ⟨hq, h⟩⟩
      exact absurd h (closing_closed.ne_equal hq)
    · rw [if_neg hq]
      refine Iff.trans ⟨fun h => h.elim id fun h => absurd h.1 hq, .inl⟩ closed_iff_close
  | parenOfIf => exact stepParen_iff (.operand .ifCondition [])
  | parenOfWhile => exact stepParen_iff (.operand .whileCondition [])
  | parenOfFor => exact stepParen_iff .forInitializer
  | forInitializer =>
    dsimp only
    split
    · rw [exists_some_iff]
      exact initialized_iff_semicolon ‹_›
    · rw [exists_some_iff]
      exact initialized_iff_var ‹_›
    · rename_i hw hv
      refine Iff.trans (initialized_iff_expression hw hv) ?_
      exact demanded_iff_stepOperand (c := { c with frames := .forInitializer :: c.frames }) hnil
  | forCondition i =>
    dsimp only
    by_cases hw : t.kind = .semicolon
    · rw [if_pos hw]
      refine Iff.trans (conditioned_iff_semicolon hw) ?_
      simp only [Config.close, hw, exists_some_iff]
      exact .rfl
    · rw [if_neg hw]
      exact Iff.trans (conditioned_iff_expression hw) (demanded_iff_stepOperand hnil)
  | forIncrement i cond =>
    dsimp only
    by_cases hr : t.kind = .rightParen
    · rw [if_pos hr]
      refine Iff.trans (incremented_iff_rightParen hr) ?_
      simp only [Config.close, hr, exists_some_iff]
      exact .rfl
    · rw [if_neg hr]
      exact Iff.trans (incremented_iff_expression hr) (demanded_iff_stepOperand hnil)
  | operand clause pending =>
    rw [hphase] at ho
    exact demanded_iff_stepOperand ho
  | operator clause pending p =>
    rw [hphase] at ho
    exact grown_iff_stepOperator ho
  | possibleElse cond a =>
    dsimp only
    by_cases hw : t.kind = .elseWord
    · rw [if_pos hw, exists_some_iff]
      refine Iff.trans continues_thenBranch_iff ?_
      simp only [exists_cons_iff]
      refine ⟨fun h => h.elim (fun h => ?_) fun h => h.2, fun h => .inr ⟨hw, h⟩⟩
      exact absurd (by simp [next?, hw]) h.1
    · rw [if_neg hw]
      have hnext : next? (t :: ts) ≠ some .elseWord := by simpa [next?] using hw
      have hiff : Demands e c (t :: ts) ps ↔ Declared e c.withoutElse.frames c.withoutElse.done (t :: ts) ps :=
        demands_possibleElse_iff hv hphase hnext
      rw [Demands, hphase] at hiff
      refine Iff.trans hiff ?_
      exact declared_iff_stepDeclaration he hne

theorem declared_iff_finish (he : e.kind = .eof) (hphase : c.phase = .declaration) :
    Declared e c.frames c.done [e] ps ↔ c.finish? = some ps := by
  obtain ⟨phase, frames, done⟩ := c
  dsimp only at hphase
  subst hphase
  have hdecl : ¬ ∃ s rest, Derives true .declaration [e] rest s ∧ Continues e frames s done rest ps := by
    rintro ⟨s, rest, h, -⟩
    obtain ⟨t, us, heq, ht⟩ := h.declaration_begins
    cases heq
    simp [he] at ht
  simp only [Declared, hdecl, or_false, Config.finish?, Config.withoutElse]
  cases frames with
  | nil =>
    simp only [true_and, Option.some.injEq]
    exact eq_comm
  | cons f frames =>
    cases f with
    | block before =>
      simp only [exists_cons_iff, he]
      simp
    | _ => simp

theorem close_eq_none {clause : Clause} {p : Phrase} (hs : t.kind ≠ .semicolon) (hr : t.kind ≠ .rightParen) :
    c.close clause p t = none := by
  unfold Config.close
  split <;> simp_all

theorem stepOperator_eq_none {clause : Clause} {pending : List Pending} {p : Phrase} (hfind : Level.find? t.kind = none)
    (he : t.kind ≠ .equal) (hs : t.kind ≠ .semicolon) (hr : t.kind ≠ .rightParen) :
    c.stepOperator clause pending p t = none := by
  unfold Config.stepOperator
  rw [hfind]
  dsimp only
  rw [if_neg he]
  split
  · rw [if_neg hr]
  · exact close_eq_none hs hr

theorem not_conditioned_eof {frames : List Frame} {done : List Phrase} {i : Phrase} (he : e.kind = .eof) :
    ¬ Conditioned e frames done i [e] ps := by
  rintro ⟨w, us, cond, h, hw, -⟩
  obtain ⟨heq, -⟩ := (clause_iff_of_not_mem (he ▸ by decide)).mp h
  cases heq
  simp [he] at hw

theorem finish?_ne (hd : c.phase ≠ .declaration) (helse : ∀ cond a, c.phase ≠ .possibleElse cond a) :
    c.finish? ≠ some ps := by
  obtain ⟨phase, frames, done⟩ := c
  cases phase <;> simp_all [Config.finish?, Config.withoutElse]

theorem not_demands_eof (hv : Valid c) (he : e.kind = .eof) (hd : c.phase ≠ .declaration)
    (helse : ∀ cond a, c.phase ≠ .possibleElse cond a) : ¬ Demands e c [e] ps := by
  have hopening : e.kind ∉ opening := he ▸ by decide
  have hparen : ∀ {P : List Token → Prop}, ¬ ∃ l us, [e] = l :: us ∧ l.kind = .leftParen ∧ P us := by
    rintro P ⟨l, us, heq, hl, -⟩
    cases heq
    simp [he] at hl
  have ho := hv.ordered
  intro h
  unfold Demands at h
  cases hphase : c.phase with
  | declaration => exact hd hphase
  | possibleElse cond a => exact helse cond a hphase
  | statement =>
    rw [hphase] at h
    obtain ⟨s, rest, h, -⟩ := h
    obtain ⟨t, us, heq, ht⟩ := h.statement_begins
    cases heq
    simp [he] at ht
  | name =>
    rw [hphase] at h
    have hn := identifier_of_named h
    simp [he] at hn
  | named n =>
    rw [hphase] at h
    rcases h with h | h
    · rcases closing_closed _ _ _ h with hk | hk <;> simp [he] at hk
    · obtain ⟨q, us, heq, hq, -⟩ := h
      cases heq
      simp [he] at hq
  | parenOfIf | parenOfWhile | parenOfFor =>
    rw [hphase] at h
    exact hparen h
  | forInitializer =>
    rw [hphase] at h
    obtain ⟨i, rest, h, -⟩ := h
    cases h with
    | initializerAbsent hw => simp [he] at hw
    | initializerVar h =>
      obtain ⟨t, us, heq, ht⟩ := h.exists_varWord
      cases heq
      simp [he] at ht
    | initializerExpression h => exact not_mem_opening h he (by decide)
  | forCondition i =>
    rw [hphase] at h
    exact not_conditioned_eof he h
  | forIncrement i cond =>
    rw [hphase] at h
    obtain ⟨r, us, s, h, hr, -⟩ := h
    obtain ⟨heq, -⟩ := (clause_iff_of_not_mem hopening).mp h
    cases heq
    simp [he] at hr
  | operand clause pending =>
    rw [hphase] at h
    exact hopening (opening_of_demanded h)
  | operator clause pending p =>
    rw [hphase] at h ho
    obtain ⟨c', hc', -⟩ := (grown_iff_stepOperator ho).mp h
    rw [stepOperator_eq_none (he ▸ by decide) (by simp [he]) (by simp [he]) (by simp [he])] at hc'
    cases hc'

theorem demands_iff_finish (hv : Valid c) (he : e.kind = .eof) : Demands e c [e] ps ↔ c.finish? = some ps := by
  by_cases hd : c.phase = .declaration
  · unfold Demands
    rw [hd]
    exact declared_iff_finish he hd
  by_cases helse : ∃ cond a, c.phase = .possibleElse cond a
  · obtain ⟨cond, a, hphase⟩ := helse
    obtain ⟨-, hdecl⟩ := withoutElse_valid hv hphase
    have hnext : next? [e] ≠ some .elseWord := by simp [next?, he]
    have hfinish : c.finish? = c.withoutElse.finish? := by
      have hself : c.withoutElse.withoutElse = c.withoutElse := by
        generalize c.withoutElse = d at hdecl
        simp only [Config.withoutElse, hdecl]
      rw [Config.finish?, Config.finish?, hself]
    rw [hfinish, ← declared_iff_finish he hdecl]
    exact demands_possibleElse_iff hv hphase hnext
  · have helse : ∀ cond a, c.phase ≠ .possibleElse cond a := fun cond a h => helse ⟨cond, a, h⟩
    exact iff_of_false (not_demands_eof hv he hd helse) (finish?_ne hd helse)

def phrases? (c : Config) : List Token → Option (List Phrase)
  | [] => c.finish?
  | t :: ts => (c.step t).bind fun c => phrases? c ts

theorem demands_iff_phrases? (he : e.kind = .eof) (hts : ∀ t ∈ ts, t.kind ≠ .eof) :
    ∀ c, Valid c → (Demands e c (ts ++ [e]) ps ↔ phrases? c ts = some ps) := by
  induction ts with
  | nil => exact fun c hv => demands_iff_finish hv he
  | cons t ts ih =>
    intro c hv
    have ih := ih fun u hu => hts u (by simp [hu])
    rw [List.cons_append, demands_iff_step hv he (hts t (by simp)), phrases?, Option.bind_eq_some_iff]
    constructor
    · rintro ⟨c', hc, h⟩
      exact ⟨c', hc, (ih c' (step_valid hv hc)).mp h⟩
    · rintro ⟨c', hc, h⟩
      exact ⟨c', hc, (ih c' (step_valid hv hc)).mpr h⟩

theorem start_valid : Valid .start :=
  ⟨trivial, .inl (by simp [Plain, Config.start])⟩

theorem phrases?_eq_some_iff (he : e.kind = .eof) (hts : ∀ t ∈ ts, t.kind ≠ .eof) :
    phrases? .start ts = some ps ↔ Program true (ts ++ [e]) ps := by
  rw [← demands_iff_phrases? he hts .start start_valid]
  refine Iff.trans declared_nil_iff ?_
  constructor
  · rintro ⟨qs, h, rfl⟩
    exact ⟨e, he, h⟩
  · rintro ⟨e', he', h⟩
    obtain rfl : e' = e := h.end_eq
    exact ⟨ps, h, rfl⟩

end

end Lox.Ascent
