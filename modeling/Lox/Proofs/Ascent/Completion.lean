import Lox.Proofs.Blame.Refusals

/-!
Every configuration that is reached can be brought to the end of a program: operands are supplied, what is open is
closed, and the statements that are waited for follow. So the tokens that configurations let pass are those with which
some program begins. Main statement: `viable_iff`.
-/
namespace Lox.Ascent

open Grammar

/-- Some program begins with the tokens. -/
def Viable (ts : List Token) : Prop :=
  ∃ us ps, (∀ u ∈ us, u.kind ≠ .eof) ∧ Program true (ts ++ us ++ [endToken 0]) ps

def filler (k : Kind) : Token :=
  ⟨k, .text "", .nil, 0⟩

def Config.run? (c : Config) : List Token → Option Config
  | [] => some c
  | t :: ts => (c.step t).bind (run? · ts)

def Completable (c : Config) : Prop :=
  ∃ ts ps, (∀ t ∈ ts, t.kind ∉ [.eof, .elseWord]) ∧ phrases? c ts = some ps

section

variable {c c' : Config} {t : Token} {k : Kind} {frames : List Frame} {done ps : List Phrase} {clause : Clause}
  {pending : List Pending} {s p cond a : Phrase} {ts us : List Token}

theorem Completable.step (hk : k ∉ [.eof, .elseWord]) (h : c.step (filler k) = some c') (hc : Completable c') :
    Completable c := by
  obtain ⟨ts, ps, hts, hps⟩ := hc
  refine ⟨filler k :: ts, ps, List.forall_mem_cons.mpr ⟨hk, hts⟩, ?_⟩
  rw [phrases?, h, Option.bind_some, hps]

theorem completable_possibleElse (hp : Plain frames)
    (h : Completable (Config.complete false done (.branch cond a .absent) frames)) :
    Completable ⟨.possibleElse cond a, frames, done⟩ := by
  obtain ⟨-, hphase⟩ := complete_plain false done frames (.branch cond a .absent) hp
  have hphase := hphase.resolve_right fun h => by simp at h
  obtain ⟨ts, ps, hts, hps⟩ := h
  refine ⟨ts, ps, hts, ?_⟩
  rw [← hps]
  cases ts with
  | nil =>
    simp only [phrases?, Config.finish?, Config.withoutElse]
    rw [hphase]
  | cons t ts =>
    have hne : t.kind ≠ .elseWord := fun he => hts t (by simp) (by simp [he])
    simp only [phrases?, Config.step, Config.withoutElse, if_neg hne]
    rw [hphase]

theorem completable_complete (mayElse : Bool) : ∀ frames s, Plain frames →
    Completable (Config.complete mayElse done s frames) := by
  intro frames
  induction frames generalizing mayElse with
  | nil => exact fun s _ => ⟨[], (s :: done).reverse, by simp, rfl⟩
  | cons f frames ih =>
    intro s hp
    cases f with
    | block before => exact .step (k := .rightBrace) (by simp) rfl (ih true _ hp.tail)
    | thenBranch cond =>
      cases mayElse with
      | true => exact completable_possibleElse hp.tail (ih false _ hp.tail)
      | false => exact ih false _ hp.tail
    | elseBranch cond a => exact ih mayElse _ hp.tail
    | whileBody cond => exact ih mayElse _ hp.tail
    | forInitializer => exact absurd List.mem_cons_self hp
    | forBody i cond inc => exact ih mayElse _ hp.tail

theorem completable_statement (hp : Plain frames) : Completable ⟨.statement, frames, done⟩ := by
  refine .step (k := .identifier) (by simp) rfl ?_
  exact .step (k := .semicolon) (by simp) rfl (completable_complete true _ _ hp)

theorem completable_forIncrement (hp : Plain frames) : Completable ⟨.forIncrement s p, frames, done⟩ :=
  .step (k := .rightParen) (by simp) rfl (completable_statement (hp.cons (by simp)))

theorem completable_forCondition (hp : Plain frames) : Completable ⟨.forCondition s, frames, done⟩ :=
  .step (k := .semicolon) (by simp) rfl (completable_forIncrement hp)

theorem completable_placed {initializes : Prop} (hp : Placed initializes frames) :
    Completable (Config.complete true done s frames) := by
  rcases hp with hp | ⟨-, rest, rfl, hp⟩
  · exact completable_complete true frames s hp
  · exact completable_forCondition hp

theorem completable_close (hp : Placed clause.Initializes frames) (ht : t.kind = clause.mark)
    (h : Config.close ⟨.declaration, frames, done⟩ clause p t = some c) : Completable c := by
  have hplain : ¬ clause.Initializes → Plain frames := fun hn => hp.resolve_right fun hi => hn hi.1
  cases clause with
  | expression | print | var _ =>
    simp only [Config.close, ht, Clause.mark, Option.some.injEq] at h
    subst h
    exact completable_placed hp
  | ifCondition | whileCondition | forIncrement _ _ =>
    simp only [Config.close, ht, Clause.mark, Option.some.injEq] at h
    subst h
    exact completable_statement ((hplain (by simp [Clause.Initializes])).cons (by simp))
  | forCondition _ =>
    simp only [Config.close, ht, Clause.mark, Option.some.injEq] at h
    subst h
    exact completable_forIncrement (hplain (by simp [Clause.Initializes]))

theorem read_of_ends {n : Nat} (hn : groups pending = n) (h : Ends (t :: ts)) :
    Read frames done clause n ⟨.operator clause pending p, frames, done⟩ (t :: ts) := by
  refine ⟨⟨⟨pending, p, hn, rfl⟩, h.noOperator⟩, ?_⟩
  rcases h with h | h <;> simp [h]

theorem completable_operator (hp : Placed clause.Initializes frames) : ∀ n pending p, groups pending = n →
    Completable ⟨.operator clause pending p, frames, done⟩ := by
  have hends : Ends [filler clause.mark] := by
    cases clause <;> first | exact .inl rfl | exact .inr rfl
  have hmark : clause.mark ∉ [.eof, .elseWord] := by
    cases clause <;> simp [Clause.mark]
  intro n
  induction n with
  | zero =>
    intro pending p hn
    have hread : Read frames done clause 0 ⟨.operator clause pending p, frames, done⟩ [filler clause.mark] :=
      read_of_ends hn hends
    obtain ⟨c, hstep, q, t, ht, hclose⟩ := hread.leads_shut rfl
    exact .step hmark hstep (completable_close hp ht hclose)
  | succ n ih =>
    intro pending p hn
    have hread : Read frames done clause (n + 1) ⟨.operator clause pending p, frames, done⟩ [filler .rightParen] :=
      read_of_ends hn (.inr rfl)
    obtain ⟨c, hstep, ⟨pending', q, hn, rfl⟩, -⟩ := hread.leads_has rfl
    exact .step (by simp) hstep (ih pending' q hn)

theorem completable_operand (hp : Placed clause.Initializes frames) :
    Completable ⟨.operand clause pending, frames, done⟩ :=
  .step (k := .identifier) (by simp) rfl (completable_operator hp _ _ _ rfl)

theorem Valid.completable (hv : Valid c) : Completable c := by
  obtain ⟨phase, frames, done⟩ := c
  obtain ⟨-, hp⟩ := hv
  have hplain : ¬ phase.Initializes → Plain frames := fun hn => hp.resolve_right fun hi => hn hi.1
  cases phase with
  | declaration =>
    have hp : Placed Clause.expression.Initializes frames := .inl (hplain (by simp [Phase.Initializes]))
    exact .step (k := .identifier) (by simp) rfl (completable_operator hp _ [] _ rfl)
  | statement => exact completable_statement (hplain (by simp [Phase.Initializes]))
  | name =>
    refine .step (k := .identifier) (by simp) rfl ?_
    exact .step (k := .semicolon) (by simp) rfl (completable_placed hp)
  | named n => exact .step (k := .semicolon) (by simp) rfl (completable_placed hp)
  | parenOfIf =>
    have hp : Placed (Clause.ifCondition).Initializes frames := .inl (hplain (by simp [Phase.Initializes]))
    exact .step (k := .leftParen) (by simp) rfl (completable_operand hp)
  | parenOfWhile =>
    have hp : Placed (Clause.whileCondition).Initializes frames := .inl (hplain (by simp [Phase.Initializes]))
    exact .step (k := .leftParen) (by simp) rfl (completable_operand hp)
  | parenOfFor =>
    refine .step (k := .leftParen) (by simp) rfl (.step (k := .semicolon) (by simp) rfl ?_)
    exact completable_forCondition (hplain (by simp [Phase.Initializes]))
  | forInitializer =>
    refine .step (k := .semicolon) (by simp) rfl ?_
    exact completable_forCondition (hplain (by simp [Phase.Initializes]))
  | forCondition i => exact completable_forCondition (hplain (by simp [Phase.Initializes]))
  | forIncrement i cond => exact completable_forIncrement (hplain (by simp [Phase.Initializes]))
  | operand clause pending => exact completable_operand hp
  | operator clause pending e => exact completable_operator hp _ _ _ rfl
  | possibleElse cond a =>
    have hp := hplain (by simp [Phase.Initializes])
    exact completable_possibleElse hp (completable_complete false _ _ hp)

theorem phrases?_append : phrases? c (ts ++ us) = (c.run? ts).bind (phrases? · us) := by
  induction ts generalizing c with
  | nil => rfl
  | cons t ts ih =>
    rw [List.cons_append, phrases?, Config.run?]
    cases c.step t with
    | none => rfl
    | some c' => exact ih

theorem phrases?_eq_bind : phrases? c ts = (c.run? ts).bind Config.finish? := by
  rw [← List.append_nil ts, phrases?_append, List.append_nil]
  rfl

theorem run?_append : c.run? (ts ++ us) = (c.run? ts).bind (Config.run? · us) := by
  induction ts generalizing c with
  | nil => rfl
  | cons t ts ih =>
    rw [List.cons_append, Config.run?, Config.run?]
    cases c.step t with
    | none => rfl
    | some c' => exact ih

theorem run?_valid (hv : Valid c) (h : c.run? ts = some c') : Valid c' := by
  induction ts generalizing c with
  | nil =>
    cases h
    exact hv
  | cons t ts ih =>
    obtain ⟨d, hd, h⟩ := Option.bind_eq_some_iff.mp h
    exact ih (step_valid hv hd) h

/-- Configurations let tokens pass exactly as long as some program begins with them. -/
theorem viable_iff (hts : ∀ t ∈ ts, t.kind ≠ .eof) : Viable ts ↔ ∃ c, Config.start.run? ts = some c := by
  constructor
  · rintro ⟨us, ps, hus, h⟩
    have hall : ∀ t ∈ ts ++ us, t.kind ≠ .eof := List.forall_mem_append.mpr ⟨hts, hus⟩
    rw [← phrases?_eq_some_iff rfl hall, phrases?_append] at h
    obtain ⟨c, hc, -⟩ := Option.bind_eq_some_iff.mp h
    exact ⟨c, hc⟩
  · rintro ⟨c, hc⟩
    obtain ⟨us, ps, hus, h⟩ := (run?_valid start_valid hc).completable
    have hus : ∀ u ∈ us, u.kind ≠ .eof := fun u hu he => hus u hu (by simp [he])
    have hall : ∀ t ∈ ts ++ us, t.kind ≠ .eof := List.forall_mem_append.mpr ⟨hts, hus⟩
    refine ⟨us, ps, hus, (phrases?_eq_some_iff rfl hall).mp ?_⟩
    rw [phrases?_append, hc, Option.bind_some, h]

end

end Lox.Ascent
