import Lox.Proofs.Scoping.Reached

namespace Lox

open Run

def EndsAt {α : Type} (x : RuntimeError) (r : EStateM.Result Stop Machine α) : Prop :=
  ∃ m, r = .error (.fault x) m

def Steady {α : Type} (y : Run α) : Prop :=
  ∀ m x, ¬ EndsAt x (y m)

section

variable {α β : Type} {x : RuntimeError} {m : Machine}

theorem endsAt_bind {y : Run α} {f : α → Run β} (h : EndsAt x ((y >>= f) m)) :
    EndsAt x (y m) ∨ ∃ a m₁, y m = .ok a m₁ ∧ EndsAt x (f a m₁) := by
  obtain ⟨m', h⟩ := h
  rcases bind_eq_error.mp h with h | ⟨a, m₁, hm₁, h⟩
  · exact .inl ⟨m', h⟩
  · exact .inr ⟨a, m₁, hm₁, m', h⟩

theorem endsAt_ofExcept {t : Token} {r : Except Fault Value} (h : EndsAt x (ofExcept (Operation.at_ t r) m)) :
    ∃ f, r = .error f ∧ x = ⟨t, f⟩ := by
  obtain ⟨m', h⟩ := h
  cases r with
  | ok v => cases h
  | error f =>
    cases h
    exact ⟨f, rfl, rfl⟩

theorem endsAt_lookup {t : Token} (h : EndsAt x (lookup t m)) :
    ∃ name, t.name? = some name ∧ m.env.get? name = none ∧ x = ⟨t, .undefinedVariable t.spelling⟩ := by
  obtain ⟨m', h⟩ := h
  cases hname : t.name? with
  | none =>
    rw [lookup_misfit hname] at h
    cases h
  | some name =>
    rw [lookup_apply hname] at h
    split at h
    · cases h
    · cases h
      exact ⟨name, rfl, ‹_›, rfl⟩

theorem endsAt_assign {t : Token} {v : Value} (h : EndsAt x (assign t v m)) :
    ∃ name, t.name? = some name ∧ m.env.assign? name v = none ∧ x = ⟨t, .undefinedVariable t.spelling⟩ := by
  obtain ⟨m', h⟩ := h
  cases hname : t.name? with
  | none =>
    rw [assign_misfit hname] at h
    cases h
  | some name =>
    rw [assign_apply hname] at h
    split at h
    · cases h
    · cases h
      exact ⟨name, rfl, ‹_›, rfl⟩

namespace Steady

theorem pure (a : α) : Steady (pure a : Run α) := by
  rintro m x ⟨m', h⟩
  cases h

theorem misfit (x : Misfit) : Steady (throw (.misfit x) : Run α) := by
  rintro m x ⟨m', h⟩
  cases h

theorem note (s : Settings) (level : Nat) (text : Unit → String) : Steady (note s level text) := by
  rintro m x ⟨m', h⟩
  unfold Run.note at h
  split at h <;> cases h

theorem print (line : String) : Steady (print line) := by
  rintro m x ⟨m', h⟩
  cases h

theorem bind {y : Run α} {f : α → Run β} (hy : Steady y) (hf : ∀ a, Steady (f a)) : Steady (y >>= f) := by
  intro m x h
  rcases endsAt_bind h with h | ⟨a, m₁, -, h⟩
  · exact hy m x h
  · exact hf a m₁ x h

theorem tokenOf (n : Node) : Steady (tokenOf n) := by
  unfold Run.tokenOf
  split
  · exact pure _
  · exact misfit _

theorem define (t : Token) (v : Value) : Steady (define t v) := by
  rintro m x ⟨m', h⟩
  cases hname : t.name? with
  | none =>
    rw [define_misfit hname] at h
    cases h
  | some name =>
    rw [define_apply hname] at h
    cases h

end Steady

theorem tokenOf_ok {n : Node} {t : Token} {m' : Machine} (h : tokenOf n m = .ok t m') : n = .token t ∧ m = m' := by
  cases n with
  | token t' =>
    cases h
    exact ⟨rfl, rfl⟩
  | _ => cases h

end

inductive Task.Raises (s : Settings) (limit : Nat) (m : Machine) : Task → RuntimeError → Prop
  | unary {o e v m₁ f} : Lox.evaluate s limit e m = .ok v m₁ → Operation.unary o v = .error f →
      Raises s limit m (.evaluate (.unary (.token o) e)) ⟨o, f⟩
  | binary {a o b left right m₁ m₂ f} : Lox.evaluate s limit a m = .ok left m₁ →
      Lox.evaluate s limit b m₁ = .ok right m₂ → Operation.binary o left right = .error f →
      Raises s limit m (.evaluate (.binary a (.token o) b)) ⟨o, f⟩
  | read {t name} : t.name? = some name → m.env.get? name = none →
      Raises s limit m (.evaluate (.variable (.token t))) ⟨t, .undefinedVariable t.spelling⟩
  | assigned {t e v m₁ name} : Lox.evaluate s limit e m = .ok v m₁ → t.name? = some name →
      m₁.env.assign? name v = none →
      Raises s limit m (.evaluate (.assign (.token t) e)) ⟨t, .undefinedVariable t.spelling⟩

def Task.EndsAt (s : Settings) (limit : Nat) (x : RuntimeError) (m : Machine) : Task → Prop
  | .execute n => Lox.EndsAt x (Lox.execute s limit n m)
  | .evaluate n => Lox.EndsAt x (Lox.evaluate s limit n m)

def Passes (s : Settings) (limit : Nat) (x : RuntimeError) (task : Task) (m : Machine) : Prop :=
  ∃ task' m', Calls s limit task m task' m' ∧ task'.EndsAt s limit x m'

section

variable {s : Settings} {limit : Nat} {x : RuntimeError} {m : Machine}

theorem evaluate_endsAt {n : Node} (h : EndsAt x (evaluate s (limit + 1) n m)) :
    Task.Raises s limit m (.evaluate n) x ∨ Passes s limit x (.evaluate n) m := by
  cases n with
  | literal v => exact absurd h (Steady.pure v m x)
  | grouping e => exact .inr ⟨_, m, .grouping, h⟩
  | unary operator e =>
    rcases endsAt_bind h with h | ⟨v, m₁, hv, h⟩
    · exact .inr ⟨_, m, .unary, h⟩
    rcases endsAt_bind h with h | ⟨o, m₂, ho, hop⟩
    · exact absurd h (Steady.tokenOf operator m₁ x)
    obtain ⟨rfl, rfl⟩ := tokenOf_ok ho
    obtain ⟨f, hf, rfl⟩ := endsAt_ofExcept hop
    exact .inl (.unary hv hf)
  | binary a operator b =>
    rcases endsAt_bind h with h | ⟨left, m₁, hleft, h⟩
    · exact .inr ⟨_, m, .binaryLeft, h⟩
    rcases endsAt_bind h with h | ⟨right, m₂, hright, h⟩
    · exact .inr ⟨_, m₁, .binaryRight hleft, h⟩
    rcases endsAt_bind h with h | ⟨o, m₃, ho, hop⟩
    · exact absurd h (Steady.tokenOf operator m₂ x)
    obtain ⟨rfl, rfl⟩ := tokenOf_ok ho
    obtain ⟨f, hf, rfl⟩ := endsAt_ofExcept hop
    exact .inl (.binary hleft hright hf)
  | logical a operator b =>
    rcases endsAt_bind h with h | ⟨left, m₁, hleft, h⟩
    · exact .inr ⟨_, m, .logicalLeft, h⟩
    rcases endsAt_bind h with h | ⟨o, m₂, ho, hb⟩
    · exact absurd h (Steady.tokenOf operator m₁ x)
    obtain ⟨rfl, rfl⟩ := tokenOf_ok ho
    by_cases hshort : logicalShort o left = true
    · rw [if_pos hshort] at hb
      exact absurd hb (Steady.pure left m₁ x)
    · rw [if_neg hshort] at hb
      exact .inr ⟨_, m₁, .logicalRight hleft (Bool.eq_false_iff.mpr hshort), hb⟩
  | «variable» name =>
    rcases endsAt_bind h with h | ⟨t, m₁, ht, hlookup⟩
    · exact absurd h (Steady.tokenOf name m x)
    obtain ⟨rfl, rfl⟩ := tokenOf_ok ht
    obtain ⟨name, hname, hget, rfl⟩ := endsAt_lookup hlookup
    exact .inl (.read hname hget)
  | assign name e =>
    rcases endsAt_bind h with h | ⟨v, m₁, hv, h⟩
    · exact .inr ⟨_, m, .assigned, h⟩
    rcases endsAt_bind h with h | ⟨t, m₂, ht, hassign⟩
    · exact absurd h (Steady.tokenOf name m₁ x)
    obtain ⟨rfl, rfl⟩ := tokenOf_ok ht
    rcases endsAt_bind hassign with h | ⟨⟨⟩, m₃, -, h⟩
    · obtain ⟨name, hname, hnone, rfl⟩ := endsAt_assign h
      exact .inl (.assigned hv hname hnone)
    · exact absurd h (Steady.bind (.note s 2 _) (fun _ => .pure v) m₃ x)
  | _ => exact absurd h (Steady.misfit _ m x)

theorem repeatWhile_endsAt {c b : Node} {turns count : Nat} {start : Machine} (hturns : Turns s limit c b start m)
    (h : EndsAt x (repeatWhile (Value.truthy <$> evaluate s limit c) (execute s limit b) turns count m)) :
    Passes s limit x (.execute (.loop c b)) start := by
  induction turns generalizing count m with
  | zero =>
    obtain ⟨m', h⟩ := h
    cases h
  | succ turns ih =>
    rcases endsAt_bind h with h | ⟨go, m₁, hgo, h⟩
    · rcases endsAt_bind h with h | ⟨v, m₁, -, h⟩
      · exact ⟨_, m, .loopCondition hturns, h⟩
      · exact absurd h (Steady.pure v.truthy m₁ x)
    obtain ⟨v, m₂, hv, hgo⟩ := bind_eq_ok.mp hgo
    cases hgo
    cases htruthy : v.truthy with
    | false =>
      rw [htruthy] at h
      exact absurd h (Steady.pure count m₁ x)
    | true =>
      rw [htruthy] at h
      rcases endsAt_bind h with h | ⟨⟨⟩, m₃, hbody, h⟩
      · exact ⟨_, m₁, .loopBody hturns hv htruthy, h⟩
      · exact ih (.more hturns hv htruthy hbody) h

theorem var_endsAt {name initializer : Node} (h : EndsAt x (execute s (limit + 1) (.var name initializer) m)) :
    Passes s limit x (.execute (.var name initializer)) m := by
  have hdefine : ∀ v, Steady (do
      let t ← tokenOf name
      define t v
      note s 2 fun _ => "declare " ++ t.spelling ++ " = " ++ v.printed) :=
    fun v => .bind (.tokenOf name) fun t => .bind (.define t v) fun _ => .note s 2 _
  rw [execute] at h
  split at h
  · exact absurd h (hdefine .nil m x)
  · rename_i hne
    rcases endsAt_bind h with h | ⟨v, m₁, -, h⟩
    · exact ⟨_, m, .initializer hne, h⟩
    · exact absurd h (hdefine v m₁ x)

theorem branch_endsAt {c a b : Node} (h : EndsAt x (execute s (limit + 1) (.branch c a b) m)) :
    Passes s limit x (.execute (.branch c a b)) m := by
  rcases endsAt_bind h with h | ⟨v, m₁, hv, h⟩
  · exact ⟨_, m, .condition, h⟩
  rcases endsAt_bind h with h | ⟨⟨⟩, m₂, hnote, h⟩
  · exact absurd h (Steady.note s 3 _ m₁ x)
  by_cases htruthy : v.truthy = true
  · rw [if_pos htruthy] at h
    exact ⟨_, m₂, .thenBranch hv hnote htruthy, h⟩
  rw [if_neg htruthy] at h
  by_cases habsent : b = .absent
  · rw [if_pos habsent] at h
    exact absurd h (Steady.pure () m₂ x)
  · rw [if_neg habsent] at h
    exact ⟨_, m₂, .elseBranch hv hnote (Bool.eq_false_iff.mpr htruthy) habsent, h⟩

theorem forM_endsAt {ns : List Node} (h : EndsAt x (ns.forM (execute s limit) m)) :
    ∃ before n behind m₁, ns = before ++ n :: behind ∧ before.forM (execute s limit) m = .ok () m₁ ∧
      EndsAt x (execute s limit n m₁) := by
  induction ns generalizing m with
  | nil => exact absurd h (Steady.pure () m x)
  | cons n ns ih =>
    rcases endsAt_bind h with h | ⟨⟨⟩, m₁, hm₁, h⟩
    · exact ⟨[], n, ns, m, rfl, rfl, h⟩
    · obtain ⟨before, n', behind, m₂, rfl, hbefore, h⟩ := ih h
      exact ⟨n :: before, n', behind, m₂, rfl, bind_eq_ok.mpr ⟨(), m₁, hm₁, hbefore⟩, h⟩

theorem inside_endsAt {ns : List Node} (h : EndsAt x (inside s limit ns m)) :
    ∃ before n behind m₁, ns = before ++ n :: behind ∧ inside s limit before m = .ok () m₁ ∧
      EndsAt x (execute s limit n m₁) := by
  rcases endsAt_bind h with h | ⟨machine, m₁, hm₁, h⟩
  · obtain ⟨m', h⟩ := h
    cases h
  rcases endsAt_bind h with h | ⟨⟨⟩, m₂, hnote, h⟩
  · exact absurd h (Steady.note s 3 _ m₁ x)
  obtain ⟨before, n, behind, m₃, hns, hbefore, h⟩ := forM_endsAt h
  exact ⟨before, n, behind, m₃, hns, bind_eq_ok.mpr ⟨machine, m₁, hm₁, bind_eq_ok.mpr ⟨(), m₂, hnote, hbefore⟩⟩, h⟩

theorem Reached.fault {program : List Node} {start : Machine} {p : Site} {task : Task}
    (h : Reached s program start p limit task m) (hx : task.EndsAt s limit x m) :
    ∃ p' limit' task' m', Reached s program start p' (limit' + 1) task' m' ∧ task'.Raises s limit' m' x ∧
      task'.EndsAt s (limit' + 1) x m' := by
  induction limit generalizing p task m with
  | zero =>
    cases task <;> obtain ⟨m', hx⟩ := hx <;> cases hx
  | succ limit ih =>
    -- a task that passes the failure on has come to one with a smaller limit that fails the same way
    have hpasses : Passes s limit x task m → _ := fun ⟨task', m', hc, hx⟩ => ih (h.call hc) hx
    cases task with
    | evaluate n =>
      rcases evaluate_endsAt hx with hr | hp
      · exact ⟨p, limit, _, m, h, hr, hx⟩
      · exact hpasses hp
    | execute n =>
      cases n with
      | expression e =>
        rcases endsAt_bind hx with hx | ⟨v, m₁, -, hx⟩
        · exact hpasses ⟨_, m, .expression, hx⟩
        · exact absurd hx (Steady.pure () m₁ x)
      | print e =>
        rcases endsAt_bind hx with hx | ⟨v, m₁, -, hx⟩
        · exact hpasses ⟨_, m, .print, hx⟩
        · exact absurd hx (Steady.print v.printed m₁ x)
      | var name initializer => exact hpasses (var_endsAt hx)
      | branch c a b => exact hpasses (branch_endsAt hx)
      | loop c b =>
        rcases endsAt_bind hx with hx | ⟨count, m₁, -, hx⟩
        · exact hpasses (repeatWhile_endsAt .none hx)
        · exact absurd hx (Steady.note s 3 _ m₁ x)
      | block ns =>
        have hinside : EndsAt x (inside s limit ns { m with env := m.env.enter }) := by
          obtain ⟨m', hx⟩ := hx
          rw [execute_block] at hx
          unfold inScope at hx
          split at hx
          · cases hx
          · rename_i hend
            cases hx
            exact ⟨_, hend⟩
        obtain ⟨before, n, behind, m₁, rfl, hm₁, hx⟩ := inside_endsAt hinside
        exact ih (h.block hm₁) hx
      | _ => exact absurd hx (Steady.misfit _ m x)

end

end Lox
