import Lox.Proofs.Ascent.Text

namespace Lox.Ascent

open Grammar

abbrev Situation := Config → List Token → Prop

namespace Config

def Refuses (C : Config) (t : Token) : Prop :=
  if t.kind = .eof then C.finish? = none else C.step t = none

def Leads (C : Config) (t : Token) (Q : Situation) (ts : List Token) : Prop :=
  ∃ C', C.step t = some C' ∧ Q C' ts

def refusal? : Nat → Config → List Token → Option (Nat × Token)
  | _, _, [] => none
  | i, C, t :: ts =>
    if t.kind = .eof then if C.finish?.isNone then some (i, t) else none
    else
      match C.step t with
      | none => some (i, t)
      | some C => refusal? (i + 1) C ts

section

variable {C C' : Config} {t : Token} {ts : List Token} {i j : Nat}

theorem refusal?_step (ht : t.kind ≠ .eof) (h : C.step t = some C') :
    C.refusal? i (t :: ts) = C'.refusal? (i + 1) ts := by
  rw [refusal?, if_neg ht, h]

theorem refusal?_unfit (ht : t.kind ≠ .eof) (h : C.step t = none) : C.refusal? i (t :: ts) = some (i, t) := by
  rw [refusal?, if_neg ht, h]

theorem Refuses.refusal? (h : C.Refuses t) : C.refusal? i (t :: ts) = some (i, t) := by
  unfold Refuses at h
  split at h
  · rename_i ht
    rw [Config.refusal?, if_pos ht, h]
    rfl
  · exact refusal?_unfit ‹_› h

theorem refuses_of (hend : t.kind = .eof → C.finish? = none) (h : C.step t = none) : C.Refuses t := by
  unfold Refuses
  split
  · exact hend ‹_›
  · exact h

theorem refusal?_eq_some (h : C.refusal? i ts = some (j, t)) : ∃ k, j = i + k ∧ ts[k]? = some t := by
  induction ts generalizing i C with
  | nil => cases h
  | cons u us ih =>
    rw [refusal?] at h
    have hhere : some (i, u) = some (j, t) → ∃ k, j = i + k ∧ (u :: us)[k]? = some t := by
      intro h
      cases h
      exact ⟨0, rfl, rfl⟩
    split at h
    · split at h
      · exact hhere h
      · cases h
    · split at h
      · exact hhere h
      · obtain ⟨k, rfl, hk⟩ := ih h
        exact ⟨k + 1, by omega, hk⟩

end

end Config

def groups : List Pending → Nat
  | [] => 0
  | .group :: pending => groups pending + 1
  | _ :: pending => groups pending

def Clause.mark : Clause → Kind
  | .ifCondition | .whileCondition | .forIncrement _ _ => .rightParen
  | _ => .semicolon

section

variable (frames : List Frame) (done : List Phrase) (clause : Clause) (n : Nat)

def Awaits : Situation := fun C ts =>
  ∀ t ∈ ts.head?, (t.kind = .eof → C.finish? = none) ∧ ∃ pending, groups pending = n ∧
    C.step t = Config.stepOperand ⟨.declaration, frames, done⟩ clause pending t

def Has (levels : List Level) : Situation := fun C ts =>
  (∃ pending e, groups pending = n ∧ C = ⟨.operator clause pending e, frames, done⟩) ∧ NoOperator levels ts

def Read : Situation := fun C ts =>
  Has frames done clause n Ascent.levels C ts ∧ next? ts ≠ some .equal

def Shut : Situation := fun C _ =>
  ∃ e t, t.kind = clause.mark ∧ Config.close ⟨.declaration, frames, done⟩ clause e t = some C

end

section

variable {frames : List Frame} {done : List Phrase} {clause : Clause} {n : Nat} {levels : List Level} {level : Level}
  {C : Config} {t : Token} {ts : List Token} {p : Phrase} {pending : List Pending}

theorem groups_reduce (rank : Nat) (p : Phrase) (pending : List Pending) :
    groups (Config.reduce rank p pending).2 = groups pending := by
  fun_induction Config.reduce rank p pending with
  | case1 e o pending ih => exact ih
  | case2 e l a o pending h ih => exact ih
  | case3 => rfl
  | case4 => rfl

theorem reduceAll_of_zero (h : groups pending = 0) : (Config.reduceAll p pending).2 = [] := by
  fun_induction Config.reduceAll p pending with
  | case1 e o pending ih | case2 e l a o pending ih | case3 e t o pending ih => exact ih h
  | case4 => cases h
  | case5 => rfl

theorem reduceAll_of_succ (h : groups pending = n + 1) :
    ∃ outer, (Config.reduceAll p pending).2 = .group :: outer ∧ groups outer = n := by
  fun_induction Config.reduceAll p pending with
  | case1 e o pending ih | case2 e l a o pending ih | case3 e t o pending ih => exact ih h
  | case4 e pending => exact ⟨pending, rfl, Nat.succ.inj h⟩
  | case5 => cases h

theorem Clause.mark_ne_eof (clause : Clause) : clause.mark ≠ .eof := by
  cases clause <;> simp [mark]

theorem awaits_of_operand (h : groups pending = n) :
    Awaits frames done clause n ⟨.operand clause pending, frames, done⟩ ts :=
  fun _ _ => ⟨fun _ => rfl, pending, h, rfl⟩

theorem Awaits.leads_has (h : Awaits frames done clause n C (t :: ts))
    (ht : t.kind ∈ [.number, .string, .trueWord, .falseWord, .nilWord, .identifier]) :
    C.Leads t (Has frames done clause n []) ts := by
  obtain ⟨-, pending, hn, hstep⟩ := h t rfl
  rw [Config.Leads, hstep]
  have hhas (e : Phrase) : ∃ C', some (⟨.operator clause pending e, frames, done⟩ : Config) = some C' ∧
      Has frames done clause n [] C' ts := ⟨_, rfl, ⟨pending, e, hn, rfl⟩, by simp [NoOperator]⟩
  simp only [List.mem_cons, List.not_mem_nil, or_false] at ht
  rcases ht with ht | ht | ht | ht | ht | ht <;> simp only [Config.stepOperand, ht] <;> exact hhas _

theorem Awaits.leads_group (h : Awaits frames done clause n C (t :: ts)) (ht : t.kind = .leftParen) :
    C.Leads t (Awaits frames done clause (n + 1)) ts := by
  obtain ⟨-, pending, hn, hstep⟩ := h t rfl
  refine ⟨⟨.operand clause (.group :: pending), frames, done⟩, ?_, awaits_of_operand (congrArg (· + 1) hn)⟩
  rw [hstep]
  simp only [Config.stepOperand, ht]

theorem Awaits.leads_unary (h : Awaits frames done clause n C (t :: ts)) (ht : t.kind ∈ [.bang, .minus]) :
    C.Leads t (Awaits frames done clause n) ts := by
  obtain ⟨-, pending, hn, hstep⟩ := h t rfl
  refine ⟨⟨.operand clause (.unary t :: pending), frames, done⟩, ?_, awaits_of_operand hn⟩
  rw [hstep]
  simp only [List.mem_cons, List.not_mem_nil, or_false] at ht
  rcases ht with ht | ht <;> simp only [Config.stepOperand, ht]

theorem Awaits.refuses (h : Awaits frames done clause n C (t :: ts)) (ht : t.kind ∉ opening) : C.Refuses t := by
  obtain ⟨hend, pending, -, hstep⟩ := h t rfl
  exact Config.refuses_of hend (hstep.trans (stepOperand_eq_none ht))

theorem Has.leads_operator (h : Has frames done clause n levels C (t :: ts)) (hl : level ∈ Ascent.levels)
    (ht : t.kind ∈ level.operators) : C.Leads t (Awaits frames done clause n) ts := by
  obtain ⟨⟨pending, e, hn, rfl⟩, -⟩ := h
  cases hfind : Level.find? t.kind with
  | none => exact absurd ht (Level.find?_eq_none hfind level hl)
  | some l =>
    refine ⟨⟨.operand clause (.binary l (Config.reduce l.rank e pending).1 t :: (Config.reduce l.rank e pending).2), frames,
      done⟩, ?_, awaits_of_operand ((groups_reduce _ _ _).trans hn)⟩
    simp only [Config.step, Config.stepOperator, hfind]

theorem Has.leads_equal (h : Has frames done clause n levels C (t :: ts)) (ht : t.kind = .equal) :
    C.Leads t (Awaits frames done clause n) ts := by
  obtain ⟨⟨pending, e, hn, rfl⟩, -⟩ := h
  have hfind : Level.find? t.kind = none := by
    rw [ht]
    decide
  refine ⟨⟨.operand clause (.assign (Config.reduce 0 e pending).1 t :: (Config.reduce 0 e pending).2), frames, done⟩, ?_,
    awaits_of_operand ((groups_reduce _ _ _).trans hn)⟩
  simp only [Config.step, Config.stepOperator, hfind, if_pos ht]

theorem Read.step_eq (h : Read frames done clause n C (t :: ts)) : ∃ pending e, groups pending = n ∧ C.finish? = none ∧
    C.step t = match Config.reduceAll e pending with
      | (e, .group :: pending) =>
        if t.kind = .rightParen then some ⟨.operator clause pending (.grouping e), frames, done⟩ else none
      | (e, _) => Config.close ⟨.declaration, frames, done⟩ clause e t := by
  obtain ⟨⟨⟨pending, e, hn, rfl⟩, hno⟩, hne⟩ := h
  have hfind : Level.find? t.kind = none := by
    cases hfind : Level.find? t.kind with
    | none => rfl
    | some l =>
      obtain ⟨hl, hk⟩ := Level.find?_eq_some hfind
      exact absurd hk (hno l hl t.kind rfl)
  have ht : t.kind ≠ .equal := fun he => hne (congrArg some he)
  refine ⟨pending, e, hn, rfl, ?_⟩
  simp only [Config.step, Config.stepOperator, hfind, if_neg ht]
  rfl

theorem Read.step_group (h : Read frames done clause (n + 1) C (t :: ts)) : ∃ pending e, groups pending = n ∧
    C.finish? = none ∧
    C.step t = if t.kind = .rightParen then some ⟨.operator clause pending (.grouping e), frames, done⟩ else none := by
  obtain ⟨pending, e, hn, hend, hstep⟩ := h.step_eq
  obtain ⟨outer, houter, hn⟩ := reduceAll_of_succ (p := e) hn
  refine ⟨outer, (Config.reduceAll e pending).1, hn, hend, ?_⟩
  rw [hstep]
  generalize Config.reduceAll e pending = r at houter
  obtain ⟨e', inner⟩ := r
  dsimp only at houter
  subst houter
  rfl

theorem Read.step_clause (h : Read frames done clause 0 C (t :: ts)) : ∃ e, C.finish? = none ∧
    C.step t = Config.close ⟨.declaration, frames, done⟩ clause e t := by
  obtain ⟨pending, e, hn, hend, hstep⟩ := h.step_eq
  have hnil := reduceAll_of_zero (p := e) hn
  refine ⟨(Config.reduceAll e pending).1, hend, ?_⟩
  rw [hstep]
  generalize Config.reduceAll e pending = r at hnil
  obtain ⟨e', outer⟩ := r
  dsimp only at hnil
  subst hnil
  rfl

theorem Read.leads_has (h : Read frames done clause (n + 1) C (t :: ts)) (ht : t.kind = .rightParen) :
    C.Leads t (Has frames done clause n []) ts := by
  obtain ⟨pending, e, hn, -, hstep⟩ := h.step_group
  rw [if_pos ht] at hstep
  exact ⟨_, hstep, ⟨pending, _, hn, rfl⟩, by simp [NoOperator]⟩

theorem Read.refuses_group (h : Read frames done clause (n + 1) C (t :: ts)) (ht : t.kind ≠ .rightParen) :
    C.Refuses t := by
  obtain ⟨pending, e, -, hend, hstep⟩ := h.step_group
  rw [if_neg ht] at hstep
  exact Config.refuses_of (fun _ => hend) hstep

theorem leads_shut (hstep : C.step t = Config.close ⟨.declaration, frames, done⟩ clause p t)
    (ht : t.kind = clause.mark) : C.Leads t (Shut frames done clause) ts := by
  have hsome : ∃ C', Config.close ⟨.declaration, frames, done⟩ clause p t = some C' := by
    cases clause <;> simp [Config.close, ht, Clause.mark]
  obtain ⟨C', hC'⟩ := hsome
  exact ⟨C', hstep.trans hC', p, t, ht, hC'⟩

theorem refuses_shut (hend : C.finish? = none) (hstep : C.step t = Config.close ⟨.declaration, frames, done⟩ clause p t)
    (ht : t.kind ≠ clause.mark) : C.Refuses t := by
  refine Config.refuses_of (fun _ => hend) (hstep.trans ?_)
  cases clause <;> simp only [Clause.mark] at ht <;> simp [Config.close, ht]

theorem Read.leads_shut (h : Read frames done clause 0 C (t :: ts)) (ht : t.kind = clause.mark) :
    C.Leads t (Shut frames done clause) ts := by
  obtain ⟨e, -, hstep⟩ := h.step_clause
  exact Ascent.leads_shut hstep ht

theorem Read.refuses (h : Read frames done clause 0 C (t :: ts)) (ht : t.kind ≠ clause.mark) : C.Refuses t := by
  obtain ⟨e, hend, hstep⟩ := h.step_clause
  exact refuses_shut hend hstep ht

end

end Lox.Ascent
