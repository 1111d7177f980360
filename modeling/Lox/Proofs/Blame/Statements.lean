import Lox.Proofs.Blame.Refusals

namespace Lox.Ascent

open Grammar

section

variable (frames : List Frame) (done : List Phrase) (clause : Clause)

def At (phase : Phase) : Situation := fun C _ =>
  C = ⟨phase, frames, done⟩

def AtClause : Situation := fun C _ =>
  C.finish? = none ∧ ∀ t, C.step t =
    if t.kind = clause.mark then Config.close ⟨.declaration, frames, done⟩ clause .absent t
    else Config.stepOperand ⟨.declaration, frames, done⟩ clause [] t

def AtStatement : Situation := fun C ts =>
  ∀ t ∈ ts.head?, (t.kind = .eof → C.finish? = none) ∧
    C.step t = Config.stepStatement ⟨.declaration, frames, done⟩ t

def AtDeclaration : Situation := fun C ts =>
  C.withoutElse = ⟨.declaration, frames, done⟩ ∧ (C = ⟨.declaration, frames, done⟩ ∨ next? ts ≠ some .elseWord)

def Begins : Situation := fun C ts =>
  ∀ t ∈ ts.head?, t.kind ≠ .eof ∧ C.step t =
    if t.kind = .varWord then some ⟨.name, frames, done⟩ else Config.stepStatement ⟨.declaration, frames, done⟩ t

def Complete : Situation := fun C _ =>
  ∃ s, C = Config.complete true done s frames

def Behind : Situation := fun C ts =>
  ∃ s, C = Config.complete true done s frames ∨
    next? ts ≠ some .elseWord ∧ C.withoutElse = Config.complete false done s frames

end

section

variable {frames : List Frame} {done : List Phrase} {clause : Clause} {C : Config} {t : Token} {ts : List Token}

theorem At.leads_named (h : At frames done .name C (t :: ts)) (ht : t.kind = .identifier) :
    C.Leads t (fun C ts => ∃ name, At frames done (.named name) C ts) ts := by
  subst h
  exact ⟨_, if_pos ht, t, rfl⟩

theorem At.refuses_name (h : At frames done .name C (t :: ts)) (ht : t.kind ≠ .identifier) : C.Refuses t := by
  subst h
  exact Config.refuses_of (fun _ => rfl) (if_neg ht)

theorem At.leads_initializer {name : Token} (h : At frames done (.named name) C (t :: ts)) (ht : t.kind = .equal) :
    C.Leads t (Awaits frames done (.var name) 0) ts := by
  subst h
  exact ⟨_, if_pos ht, awaits_of_operand rfl⟩

theorem At.step_named {name : Token} (h : At frames done (.named name) C (t :: ts)) (hne : next? (t :: ts) ≠ some .equal) :
    C.finish? = none ∧ C.step t = Config.close ⟨.declaration, frames, done⟩ (.var name) .absent t := by
  subst h
  exact ⟨rfl, if_neg fun ht => hne (congrArg some ht)⟩

def Parenthesized (phase next : Phase) : Prop :=
  ∀ frames done, Config.finish? ⟨phase, frames, done⟩ = none ∧
    ∀ t, Config.step ⟨phase, frames, done⟩ t = Config.stepParen ⟨phase, frames, done⟩ next t

theorem At.leads_paren {phase next : Phase} (hp : Parenthesized phase next) (h : At frames done phase C (t :: ts))
    (ht : t.kind = .leftParen) : C.Leads t (At frames done next) ts := by
  subst h
  exact ⟨_, ((hp frames done).2 t).trans (if_pos ht), rfl⟩

theorem At.refuses_paren {phase next : Phase} (hp : Parenthesized phase next) (h : At frames done phase C (t :: ts))
    (ht : t.kind ≠ .leftParen) : C.Refuses t := by
  subst h
  exact Config.refuses_of (fun _ => (hp frames done).1) (((hp frames done).2 t).trans (if_neg ht))

theorem At.awaits {pending : List Pending} (h : At frames done (.operand clause pending) C ts) :
    Awaits frames done clause (groups pending) C ts := by
  subst h
  exact awaits_of_operand rfl

theorem At.leads_semicolon (h : At frames done .forInitializer C (t :: ts)) (ht : t.kind = .semicolon) :
    C.Leads t (fun C ts => ∃ i, At frames done (.forCondition i) C ts) ts := by
  subst h
  exact ⟨_, by simp only [Config.step, ht], .absent, rfl⟩

theorem At.leads_var (h : At frames done .forInitializer C (t :: ts)) (ht : t.kind = .varWord) :
    C.Leads t (At (.forInitializer :: frames) done .name) ts := by
  subst h
  exact ⟨_, by simp only [Config.step, ht], rfl⟩

theorem At.awaits_initializer (h : At frames done .forInitializer C ts) (hs : next? ts ≠ some .semicolon)
    (hv : next? ts ≠ some .varWord) : Awaits (.forInitializer :: frames) done .expression 0 C ts := by
  subst h
  intro t ht
  rw [next?, ht] at hs hv
  refine ⟨fun _ => rfl, [], rfl, ?_⟩
  simp only [Config.step]
  split
  · exact absurd (congrArg some ‹_›) hs
  · exact absurd (congrArg some ‹_›) hv
  · rfl

theorem At.condition {i : Phrase} (h : At frames done (.forCondition i) C ts) :
    AtClause frames done (.forCondition i) C ts := by
  subst h
  exact ⟨rfl, fun t => rfl⟩

theorem At.increment {i s : Phrase} (h : At frames done (.forIncrement i s) C ts) :
    AtClause frames done (.forIncrement i s) C ts := by
  subst h
  exact ⟨rfl, fun t => rfl⟩

theorem At.statement (h : At frames done .statement C ts) : AtStatement frames done C ts := by
  subst h
  exact fun t _ => ⟨fun _ => rfl, rfl⟩

theorem AtClause.awaits (h : AtClause frames done clause C ts) (hne : next? ts ≠ some clause.mark) :
    Awaits frames done clause 0 C ts := by
  intro t ht
  rw [next?, ht] at hne
  exact ⟨fun _ => h.1, [], rfl, (h.2 t).trans (if_neg fun he => hne (congrArg some he))⟩

theorem AtClause.leads (h : AtClause frames done clause C (t :: ts)) (ht : t.kind = clause.mark) :
    C.Leads t (Shut frames done clause) ts :=
  leads_shut ((h.2 t).trans (if_pos ht)) ht

theorem Shut.cases (h : Shut frames done clause C ts) :
    match clause with
    | .ifCondition => ∃ e, At (.thenBranch e :: frames) done .statement C ts
    | .whileCondition => ∃ e, At (.whileBody e :: frames) done .statement C ts
    | .forCondition i => ∃ e, At frames done (.forIncrement i e) C ts
    | .forIncrement i s => ∃ e, At (.forBody i s e :: frames) done .statement C ts
    | _ => Complete frames done C ts := by
  obtain ⟨e, t, ht, h⟩ := h
  cases clause <;> simp only [Clause.mark] at ht <;> simp only [Config.close, ht] at h <;> cases h <;>
    exact ⟨_, rfl⟩

theorem Complete.initializer (h : Complete (.forInitializer :: frames) done C ts) :
    ∃ i, At frames done (.forCondition i) C ts := by
  obtain ⟨s, rfl⟩ := h
  exact ⟨s, rfl⟩

theorem Complete.behind (h : Complete frames done C ts) : Behind frames done C ts := by
  obtain ⟨s, hs⟩ := h
  exact ⟨s, .inl hs⟩

theorem AtStatement.leads {phase : Phase} {fs : List Frame} (h : AtStatement frames done C (t :: ts))
    (hstep : Config.stepStatement ⟨.declaration, frames, done⟩ t = some ⟨phase, fs, done⟩) :
    C.Leads t (At fs done phase) ts :=
  ⟨_, (h t rfl).2.trans hstep, rfl⟩

theorem AtStatement.awaits (h : AtStatement frames done C ts)
    (hne : ∀ k ∈ next? ts, k ∉ [Kind.printWord, .leftBrace, .ifWord, .whileWord, .forWord]) :
    Awaits frames done .expression 0 C ts := by
  intro t ht
  obtain ⟨hend, hstep⟩ := h t ht
  have hk := hne t.kind (by rw [next?, ht]; rfl)
  refine ⟨hend, [], rfl, hstep.trans ?_⟩
  unfold Config.stepStatement
  split <;> first | rfl | simp_all

theorem Behind.outer {f : Frame} (hf : ∀ mayElse s, ∃ s', Config.complete mayElse done s (f :: frames) =
    Config.complete mayElse done s' frames) (h : Behind (f :: frames) done C ts) : Behind frames done C ts := by
  obtain ⟨s, h | ⟨hne, h⟩⟩ := h
  · obtain ⟨s', hs⟩ := hf true s
    exact ⟨s', .inl (h.trans hs)⟩
  · obtain ⟨s', hs⟩ := hf false s
    exact ⟨s', .inr ⟨hne, h.trans hs⟩⟩

theorem Behind.leads_else {e : Phrase} (h : Behind (.thenBranch e :: frames) done C (t :: ts)) (ht : t.kind = .elseWord) :
    C.Leads t (fun C ts => ∃ s, At (.elseBranch e s :: frames) done .statement C ts) ts := by
  obtain ⟨s, rfl | ⟨hne, -⟩⟩ := h
  · exact ⟨_, if_pos ht, s, rfl⟩
  · exact absurd (congrArg some ht) hne

theorem Behind.after_if {e : Phrase} (h : Behind (.thenBranch e :: frames) done C ts)
    (hne : next? ts ≠ some .elseWord) : Behind frames done C ts := by
  obtain ⟨s, rfl | ⟨-, h⟩⟩ := h
  · exact ⟨.branch e s .absent, .inr ⟨hne, rfl⟩⟩
  · exact ⟨.branch e s .absent, .inr ⟨hne, h⟩⟩

theorem Behind.atDeclaration (h : Behind frames done C ts) (fs : Phrase → List Frame) (ps : Phrase → List Phrase)
    (hf : ∀ mayElse s, Config.complete mayElse done s frames = ⟨.declaration, fs s, ps s⟩) :
    ∃ s, AtDeclaration (fs s) (ps s) C ts := by
  obtain ⟨s, rfl | ⟨hne, h⟩⟩ := h
  · rw [hf]
    exact ⟨s, rfl, .inl rfl⟩
  · rw [hf] at h
    exact ⟨s, h, .inr hne⟩

theorem AtDeclaration.finish?_eq (h : AtDeclaration frames done C ts) :
    C.finish? = Config.finish? ⟨.declaration, frames, done⟩ := by
  rw [Config.finish?, h.1]
  rfl

theorem AtDeclaration.step_eq (h : AtDeclaration frames done C (t :: ts)) :
    C.step t = Config.stepDeclaration ⟨.declaration, frames, done⟩ t := by
  obtain ⟨hwithout, rfl | hne⟩ := h
  · rfl
  · have ht : t.kind ≠ .elseWord := fun he => hne (congrArg some he)
    obtain ⟨phase, fs, ps⟩ := C
    -- only where an `else` may come next does the configuration differ from the one without it
    cases phase with
    | possibleElse e s => exact (if_neg ht).trans (congrArg (Config.stepDeclaration · t) hwithout)
    | declaration =>
      cases hwithout
      rfl
    | _ => cases hwithout

theorem AtDeclaration.begins (h : AtDeclaration frames done C ts) (hend : next? ts ≠ some .eof)
    (hbrace : frames = [] ∨ next? ts ≠ some .rightBrace) : Begins frames done C ts := by
  cases ts with
  | nil => exact fun t ht => by cases ht
  | cons t ts =>
    intro u hu
    cases hu
    refine ⟨fun he => hend (congrArg some he), h.step_eq.trans ?_⟩
    unfold Config.stepDeclaration
    split
    · rename_i ht
      rw [if_pos ht]
    · rename_i ht hframes
      rcases hbrace with rfl | hbrace
      · cases hframes
      · exact absurd (congrArg some ht) hbrace
    · rename_i ht _
      rw [if_neg ht]

theorem Begins.leads_name (h : Begins frames done C (t :: ts)) (ht : t.kind = .varWord) :
    C.Leads t (At frames done .name) ts :=
  ⟨_, (h t rfl).2.trans (if_pos ht), rfl⟩

theorem Begins.statement (h : Begins frames done C ts) (hne : next? ts ≠ some .varWord) : AtStatement frames done C ts := by
  intro t ht
  obtain ⟨hend, hstep⟩ := h t ht
  rw [next?, ht] at hne
  exact ⟨fun he => absurd he hend, hstep.trans (if_neg fun he => hne (congrArg some he))⟩

theorem AtDeclaration.leads_brace {before : List Phrase} (h : AtDeclaration (.block before :: frames) done C (t :: ts))
    (ht : t.kind = .rightBrace) : C.Leads t (Complete frames done) ts := by
  refine ⟨_, h.step_eq.trans ?_, .block before.reverse, rfl⟩
  unfold Config.stepDeclaration
  split
  · rename_i hv
    rw [ht] at hv
    cases hv
  · rename_i hframes
    cases hframes
    rfl
  · rename_i hb
    exact absurd rfl (hb _ _ ht)

theorem AtDeclaration.refuses_end {before : List Phrase} (h : AtDeclaration (.block before :: frames) done C (t :: ts))
    (ht : t.kind = .eof) : C.Refuses t := by
  rw [Config.Refuses, if_pos ht, h.finish?_eq]
  rfl

end

end Lox.Ascent
