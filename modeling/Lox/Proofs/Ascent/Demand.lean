import Lox.Proofs.Ascent.Pending

/-!
Reading from the bottom up follows the grammar: for every configuration, what the tokens from there on must be for
the text to read as given phrases. Main statements: `demands_complete_iff`,
`demanded_iff_stepOperand` and `grown_iff_stepOperator`.
-/
namespace Lox.Ascent

open Grammar

section

variable (e : Token)

def Continues : List Frame → Phrase → List Phrase → List Token → List Phrase → Prop
  | [], s, done, ts, ps => ∃ qs, Derives true .declarations ts [e] (.block qs) ∧ ps = done.reverse ++ s :: qs
  | .block before :: frames, s, done, ts, ps => ∃ qs r us, Derives true .declarations ts (r :: us) (.block qs) ∧
      r.kind = .rightBrace ∧ Continues frames (.block (before.reverse ++ s :: qs)) done us ps
  | .thenBranch c :: frames, s, done, ts, ps =>
      (next? ts ≠ some .elseWord ∧ Continues frames (.branch c s .absent) done ts ps) ∨
        ∃ w us rest b, ts = w :: us ∧ w.kind = .elseWord ∧ Derives true .statement us rest b ∧
          Continues frames (.branch c s b) done rest ps
  | .elseBranch c a :: frames, s, done, ts, ps => Continues frames (.branch c a s) done ts ps
  | .whileBody c :: frames, s, done, ts, ps => Continues frames (.loop c s) done ts ps
  | .forInitializer :: frames, s, done, ts, ps => ∃ w us c r vs i rest b, Derives true .clause ts (w :: us) c ∧
      w.kind = .semicolon ∧ Derives true .clause us (r :: vs) i ∧ r.kind = .rightParen ∧
      Derives true .statement vs rest b ∧ Continues frames (.forLoop s c i b) done rest ps
  | .forBody i c s' :: frames, s, done, ts, ps => Continues frames (.forLoop i c s' s) done ts ps

variable (frames : List Frame) (done : List Phrase)

def Stated (ts : List Token) (ps : List Phrase) : Prop :=
  ∃ s rest, Derives true .statement ts rest s ∧ Continues e frames s done rest ps

def Declared (ts : List Token) (ps : List Phrase) : Prop :=
  (match frames with
    | [] => ts = [e] ∧ ps = done.reverse
    | .block before :: frames => ∃ r us, ts = r :: us ∧ r.kind = .rightBrace ∧
        Continues e frames (.block before.reverse) done us ps
    | _ => False) ∨
    ∃ s rest, Derives true .declaration ts rest s ∧ Continues e frames s done rest ps

def Incremented (i c : Phrase) (ts : List Token) (ps : List Phrase) : Prop :=
  ∃ r us s, Derives true .clause ts (r :: us) s ∧ r.kind = .rightParen ∧ Stated e (.forBody i c s :: frames) done us ps

def Conditioned (i : Phrase) (ts : List Token) (ps : List Phrase) : Prop :=
  ∃ w us c, Derives true .clause ts (w :: us) c ∧ w.kind = .semicolon ∧ Incremented e frames done i c us ps

def Initialized (ts : List Token) (ps : List Phrase) : Prop :=
  ∃ i rest, Derives true .forInitializer ts rest i ∧ Conditioned e frames done i rest ps

def Named (ts : List Token) (ps : List Phrase) : Prop :=
  ∃ v rest p, v.kind = .varWord ∧ Derives true .varDeclaration (v :: ts) rest p ∧ Continues e frames p done rest ps

def Closed (ps : List Phrase) : Clause → Phrase → List Token → Prop
  | .expression, p, ts => ∃ w us, ts = w :: us ∧ w.kind = .semicolon ∧ Continues e frames (.expression p) done us ps
  | .print, p, ts => ∃ w us, ts = w :: us ∧ w.kind = .semicolon ∧ Continues e frames (.print p) done us ps
  | .var n, p, ts => ∃ w us, ts = w :: us ∧ w.kind = .semicolon ∧ Continues e frames (.var n p) done us ps
  | .ifCondition, p, ts => ∃ w us, ts = w :: us ∧ w.kind = .rightParen ∧ Stated e (.thenBranch p :: frames) done us ps
  | .whileCondition, p, ts => ∃ w us, ts = w :: us ∧ w.kind = .rightParen ∧ Stated e (.whileBody p :: frames) done us ps
  | .forCondition i, p, ts => ∃ w us, ts = w :: us ∧ w.kind = .semicolon ∧ Incremented e frames done i p us ps
  | .forIncrement i c, p, ts => ∃ w us, ts = w :: us ∧ w.kind = .rightParen ∧
      Stated e (.forBody i c p :: frames) done us ps

def PhaseDemands (ps : List Phrase) : Phase → List Token → Prop
  | .declaration, ts => Declared e frames done ts ps
  | .statement, ts => Stated e frames done ts ps
  | .name, ts => Named e frames done ts ps
  | .named n, ts => Closed e frames done ps (.var n) .absent ts ∨
      ∃ q us, ts = q :: us ∧ q.kind = .equal ∧ Demanded 0 (Closed e frames done ps (.var n)) us
  | .parenOfIf, ts => ∃ l us, ts = l :: us ∧ l.kind = .leftParen ∧ Demanded 0 (Closed e frames done ps .ifCondition) us
  | .parenOfWhile, ts => ∃ l us, ts = l :: us ∧ l.kind = .leftParen ∧
      Demanded 0 (Closed e frames done ps .whileCondition) us
  | .parenOfFor, ts => ∃ l us, ts = l :: us ∧ l.kind = .leftParen ∧ Initialized e frames done us ps
  | .forInitializer, ts => Initialized e frames done ts ps
  | .forCondition i, ts => Conditioned e frames done i ts ps
  | .forIncrement i c, ts => Incremented e frames done i c ts ps
  | .operand clause pending, ts => Demanded (low pending) (Filled (Closed e frames done ps clause) pending) ts
  | .operator clause pending p, ts =>
    Grown (low pending) (Filled (Closed e frames done ps clause) pending) Ascent.levels.length p ts
  | .possibleElse c s, ts => Continues e (.thenBranch c :: frames) s done ts ps

end

def Demands (e : Token) (c : Config) (ts : List Token) (ps : List Phrase) : Prop :=
  PhaseDemands e c.frames c.done ps c.phase ts

section

variable {e t : Token} {frames : List Frame} {done ps : List Phrase} {ts us rest : List Token} {s p : Phrase}

theorem declared_nil_iff : Declared e [] done ts ps ↔
    ∃ qs, Derives true .declarations ts [e] (.block qs) ∧ ps = done.reverse ++ qs := by
  simp only [Declared, Continues]
  constructor
  · rintro (⟨rfl, rfl⟩ | ⟨q, mid, h, qs, hs, rfl⟩)
    · exact ⟨[], .noDeclaration, by simp⟩
    · exact ⟨q :: qs, .moreDeclarations h hs, rfl⟩
  · rintro ⟨qs, h, rfl⟩
    cases h with
    | noDeclaration => exact .inl ⟨rfl, by simp⟩
    | moreDeclarations h hs => exact .inr ⟨_, _, h, _, hs, rfl⟩

theorem declared_block_iff {before : List Phrase} : Declared e (.block before :: frames) done ts ps ↔
    ∃ qs r us, Derives true .declarations ts (r :: us) (.block qs) ∧ r.kind = .rightBrace ∧
      Continues e frames (.block (before.reverse ++ qs)) done us ps := by
  simp only [Declared, Continues]
  constructor
  · rintro (⟨r, us, rfl, hr, hc⟩ | ⟨q, mid, h, qs, r, us, hs, hr, hc⟩)
    · exact ⟨[], r, us, .noDeclaration, hr, by simpa using hc⟩
    · exact ⟨q :: qs, r, us, .moreDeclarations h hs, hr, hc⟩
  · rintro ⟨qs, r, us, h, hr, hc⟩
    cases h with
    | noDeclaration => exact .inl ⟨r, us, rfl, hr, by simpa using hc⟩
    | moreDeclarations h hs => exact .inr ⟨_, _, h, _, r, us, hs, hr, hc⟩

theorem continues_nil_iff : Continues e [] s done ts ps ↔ Declared e [] (s :: done) ts ps := by
  simp [declared_nil_iff, Continues]

theorem continues_block_iff {before : List Phrase} : Continues e (.block before :: frames) s done ts ps ↔
    Declared e (.block (s :: before) :: frames) done ts ps := by
  simp [declared_block_iff, Continues]

theorem continues_forInitializer_iff :
    Continues e (.forInitializer :: frames) s done ts ps ↔ Conditioned e frames done s ts ps := by
  simp only [Continues, Conditioned, Incremented, Stated]
  constructor
  · rintro ⟨w, us, c, r, vs, i, rest, b, hc, hw, hi, hr, hb, h⟩
    exact ⟨w, us, c, hc, hw, r, vs, i, hi, hr, b, rest, hb, h⟩
  · rintro ⟨w, us, c, hc, hw, r, vs, i, hi, hr, b, rest, hb, h⟩
    exact ⟨w, us, c, r, vs, i, rest, b, hc, hw, hi, hr, hb, h⟩

theorem continues_thenBranch_iff {c : Phrase} : Continues e (.thenBranch c :: frames) s done ts ps ↔
    (next? ts ≠ some .elseWord ∧ Continues e frames (.branch c s .absent) done ts ps) ∨
      ∃ w us, ts = w :: us ∧ w.kind = .elseWord ∧ Stated e (.elseBranch c s :: frames) done us ps := by
  simp only [Continues, Stated]
  constructor
  · rintro (h | ⟨w, us, rest, b, hts, hw, hb, h⟩)
    · exact .inl h
    · exact .inr ⟨w, us, hts, hw, b, rest, hb, h⟩
  · rintro (h | ⟨w, us, hts, hw, b, rest, hb, h⟩)
    · exact .inl h
    · exact .inr ⟨w, us, rest, b, hts, hw, hb, h⟩

theorem demands_complete_iff {mayElse : Bool} (h : mayElse = true ∨ next? ts ≠ some .elseWord) :
    ∀ frames s, Demands e (Config.complete mayElse done s frames) ts ps ↔ Continues e frames s done ts ps := by
  intro frames
  induction frames with
  | nil => exact fun s => continues_nil_iff.symm
  | cons f frames ih =>
    intro s
    cases f with
    | block before => exact continues_block_iff.symm
    | thenBranch c =>
      rw [Config.complete]
      cases mayElse with
      | true => exact .rfl
      | false =>
        have hnext : next? ts ≠ some .elseWord := h.resolve_left (by simp)
        rw [if_neg (by simp), ih, continues_thenBranch_iff]
        constructor
        · exact fun hc => .inl ⟨hnext, hc⟩
        · rintro (⟨-, hc⟩ | ⟨w, us, rfl, hw, -⟩)
          · exact hc
          · exact absurd (by simp [next?, hw]) hnext
    | elseBranch c a => exact ih _
    | whileBody c => exact ih _
    | forInitializer => exact continues_forInitializer_iff.symm
    | forBody i c s' => exact ih _

theorem exists_cons_iff {P : Token → List Token → Prop} : (∃ w us, t :: ts = w :: us ∧ P w us) ↔ P t ts := by
  constructor
  · rintro ⟨w, us, heq, h⟩
    cases heq
    exact h
  · exact fun h => ⟨t, ts, rfl, h⟩

theorem exists_some_iff {c : Config} {P : Config → Prop} : (∃ c', some c = some c' ∧ P c') ↔ P c := by
  simp

theorem closed_iff_close {c : Config} {clause : Clause} : Closed e c.frames c.done ps clause p (t :: ts) ↔
    ∃ c', c.close clause p t = some c' ∧ Demands e c' ts ps := by
  cases clause with
  | expression | print | var _ =>
    by_cases hk : t.kind = .semicolon
    · simp only [Closed, exists_cons_iff, Config.close, hk, true_and, exists_some_iff]
      exact (demands_complete_iff (.inl rfl) _ _).symm
    · simp [Closed, Config.close, hk]
  | forCondition i =>
    by_cases hk : t.kind = .semicolon
    · simp only [Closed, exists_cons_iff, Config.close, hk, true_and, exists_some_iff]
      exact .rfl
    · simp [Closed, Config.close, hk]
  | ifCondition | whileCondition | forIncrement _ _ =>
    by_cases hk : t.kind = .rightParen
    · simp only [Closed, exists_cons_iff, Config.close, hk, true_and, exists_some_iff]
      exact .rfl
    · simp [Closed, Config.close, hk]

theorem closing_closed {clause : Clause} : Closing (Closed e frames done ps clause) := by
  intro p t ts h
  cases clause with
  | expression | print | var _ | forCondition _ =>
    obtain ⟨w, us, heq, hw, -⟩ := h
    cases heq
    exact .inl hw
  | ifCondition | whileCondition | forIncrement _ _ =>
    obtain ⟨w, us, heq, hw, -⟩ := h
    cases heq
    exact .inr hw

def leaf? (t : Token) : Option Phrase :=
  match t.kind with
  | .number | .string => some (.literal t.literal)
  | .trueWord => some (.literal (.bool true))
  | .falseWord => some (.literal (.bool false))
  | .nilWord => some (.literal .nil)
  | .identifier => some (.variable t)
  | _ => none

theorem unary_iff_of_leaf {q : Phrase} (h : leaf? t = some p) :
    Derives true .unary (t :: ts) us q ↔ us = ts ∧ q = p := by
  constructor
  · intro hd
    cases hd with
    | unary ho _ =>
      simp only [List.mem_cons, List.not_mem_nil, or_false] at ho
      rcases ho with ho | ho <;> simp [leaf?, ho] at h
    | primary hd =>
      cases hd with
      | literal ht =>
        simp only [List.mem_cons, List.not_mem_nil, or_false] at ht
        rcases ht with ht | ht <;> simp_all [leaf?]
      | trueWord ht | falseWord ht | nilWord ht | name ht | grouping ht => simp_all [leaf?]
  · rintro ⟨rfl, rfl⟩
    unfold leaf? at h
    split at h <;> cases h
    · exact .primary (.literal (by simp [*]))
    · exact .primary (.literal (by simp [*]))
    · exact .primary (.trueWord ‹_›)
    · exact .primary (.falseWord ‹_›)
    · exact .primary (.nilWord ‹_›)
    · exact .primary (.name ‹_›)

theorem unary_iff_of_leftParen {q : Phrase} (h : t.kind = .leftParen) : Derives true .unary (t :: ts) us q ↔
    ∃ p r, Derives true .expression ts (r :: us) p ∧ r.kind = .rightParen ∧ q = .grouping p := by
  constructor
  · intro hd
    cases hd with
    | unary ho _ => simp [h] at ho
    | primary hd =>
      cases hd with
      | literal ht => simp [h] at ht
      | trueWord ht | falseWord ht | nilWord ht | name ht => simp [h] at ht
      | grouping _ hp hr => exact ⟨_, _, hp, hr, rfl⟩
  · rintro ⟨p, r, hp, hr, rfl⟩
    exact .primary (.grouping h hp hr)

theorem unary_iff_of_prefix {q : Phrase} (h : t.kind ∈ [.bang, .minus]) : Derives true .unary (t :: ts) us q ↔
    ∃ p, Derives true .unary ts us p ∧ q = .unary t p := by
  constructor
  · intro hd
    cases hd with
    | unary _ hp => exact ⟨_, hp, rfl⟩
    | primary hd =>
      obtain ⟨u, vs, heq, hu⟩ := hd.primary_begins
      cases heq
      exact absurd h hu
  · rintro ⟨p, hp, rfl⟩
    exact .unary h hp

section

variable {fits : Phrase → List Token → Prop} {pending : List Pending} (ho : Ordered pending)

include ho

theorem demanded_iff_of_leaf (h : leaf? t = some p) : Demanded (low pending) fits (t :: ts) ↔
    Grown (low pending) fits Ascent.levels.length p ts := by
  simp only [demanded_iff (low_le ho), unary_iff_of_leaf h]
  constructor
  · rintro ⟨us, q, ⟨rfl, rfl⟩, hg⟩
    exact hg
  · exact fun hg => ⟨ts, p, ⟨rfl, rfl⟩, hg⟩

theorem demanded_iff_of_leftParen (h : t.kind = .leftParen) :
    Demanded (low pending) (Filled fits pending) (t :: ts) ↔ Demanded 0 (Filled fits (.group :: pending)) ts := by
  simp only [demanded_iff (low_le ho), unary_iff_of_leftParen h]
  simp only [Demanded, if_true, Filled]
  constructor
  · rintro ⟨us, q, ⟨p, r, hp, hr, rfl⟩, hg⟩
    exact ⟨p, r :: us, hp, r, us, rfl, hr, hg⟩
  · rintro ⟨p, rest, hp, r, us, rfl, hr, hg⟩
    exact ⟨us, _, ⟨p, r, hp, hr, rfl⟩, hg⟩

theorem demanded_iff_of_prefix (h : t.kind ∈ [.bang, .minus]) :
    Demanded (low pending) (Filled fits pending) (t :: ts) ↔
      Demanded Ascent.levels.length (Filled fits (.unary t :: pending)) ts := by
  have hdrop : Ascent.levels.drop Ascent.levels.length = [] := List.drop_length
  have hlen : Ascent.levels.length ≠ 0 := by decide
  simp only [demanded_iff (low_le ho), unary_iff_of_prefix h]
  simp only [Demanded, hlen, if_false, hdrop, Filled]
  constructor
  · rintro ⟨us, q, ⟨p, hp, rfl⟩, hg⟩
    exact ⟨p, us, .tightest hp, hg⟩
  · rintro ⟨p, us, hp, hg⟩
    cases hp with
    | tightest hp => exact ⟨us, _, ⟨p, hp, rfl⟩, hg⟩

end

theorem opening_of_demanded {k : Nat} {fits : Phrase → List Token → Prop} (h : Demanded k fits (t :: ts)) :
    t.kind ∈ opening := by
  obtain ⟨p, rest, hp, -⟩ := h
  have hs : ∃ t' us, t :: ts = t' :: us ∧ t'.kind ∈ opening := by
    split at hp
    · exact hp.exists_opening (.inl rfl)
    · exact hp.exists_opening (.inr (.inl ⟨_, rfl⟩))
  obtain ⟨t', us, heq, ht⟩ := hs
  cases heq
  exact ht

theorem demanded_iff_stepOperand {c : Config} {clause : Clause} {pending : List Pending} (ho : Ordered pending) :
    Demanded (low pending) (Filled (Closed e c.frames c.done ps clause) pending) (t :: ts) ↔
      ∃ c', c.stepOperand clause pending t = some c' ∧ Demands e c' ts ps := by
  unfold Config.stepOperand
  dsimp only
  split
  · rename_i hk
    rw [exists_some_iff]
    exact demanded_iff_of_leaf ho (by simp [leaf?, hk])
  · rename_i hk
    rw [exists_some_iff]
    exact demanded_iff_of_leaf ho (by simp [leaf?, hk])
  · rename_i hk
    rw [exists_some_iff]
    exact demanded_iff_of_leaf ho (by simp [leaf?, hk])
  · rename_i hk
    rw [exists_some_iff]
    exact demanded_iff_of_leaf ho (by simp [leaf?, hk])
  · rename_i hk
    rw [exists_some_iff]
    exact demanded_iff_of_leaf ho (by simp [leaf?, hk])
  · rename_i hk
    rw [exists_some_iff]
    exact demanded_iff_of_leaf ho (by simp [leaf?, hk])
  · rename_i hk
    rw [exists_some_iff]
    exact demanded_iff_of_leftParen ho hk
  · rename_i hk
    rw [exists_some_iff]
    exact demanded_iff_of_prefix ho (by simp [hk])
  · rename_i hk
    rw [exists_some_iff]
    exact demanded_iff_of_prefix ho (by simp [hk])
  · constructor
    · intro h
      have hopen := opening_of_demanded h
      simp only [opening, List.mem_cons, List.not_mem_nil, or_false] at hopen
      simp_all
    · rintro ⟨c', h, -⟩
      cases h

theorem grown_iff_stepOperator {c : Config} {clause : Clause} {pending : List Pending} (ho : Ordered pending) :
    Grown (low pending) (Filled (Closed e c.frames c.done ps clause) pending) Ascent.levels.length p (t :: ts) ↔
      ∃ c', c.stepOperator clause pending p t = some c' ∧ Demands e c' ts ps := by
  have hclosing : Closing (Closed e c.frames c.done ps clause) := closing_closed
  unfold Config.stepOperator
  cases hf : Level.find? t.kind with
  | some l =>
    obtain ⟨hl, ht⟩ := Level.find?_eq_some hf
    dsimp only
    rw [exists_some_iff]
    exact grown_iff_reduce hclosing hl ht (Level.rank_lt hl) ho
  | none =>
    have hno := Level.find?_eq_none hf
    dsimp only
    by_cases ht : t.kind = .equal
    · rw [if_pos ht, exists_some_iff, grown_iff_reduce_equal hclosing ht ho]
      exact .rfl
    · rw [if_neg ht, grown_iff_of_not_mem (fun l hl => hno l (Level.mem_between hl).1) fun he => absurd he ht]
      obtain ⟨-, hrest⟩ := ordered_reduceAll (q := p) ho
      rw [filled_iff_reduceAll ht hno]
      generalize Config.reduceAll p pending = reduced at hrest
      obtain ⟨q, rest⟩ := reduced
      rcases hrest with hrest | ⟨pending', hrest⟩ <;> dsimp only at hrest <;> subst hrest
      · exact closed_iff_close
      · simp only [Filled, exists_cons_iff]
        by_cases hr : t.kind = .rightParen
        · rw [if_pos hr, exists_some_iff]
          exact ⟨fun h => h.2, fun h => ⟨hr, h⟩⟩
        · rw [if_neg hr]
          refine ⟨fun h => absurd h.1 hr, ?_⟩
          rintro ⟨_, h, _⟩
          cases h

end

end Lox.Ascent
