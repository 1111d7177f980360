import Lox.Proofs.Recovery.Lockstep

namespace Lox

open Parse

namespace Parse

variable {α β : Type}

def Refuses (x : Parse α) : Prop :=
  ∀ c t ts, c.rest = t :: ts → t.kind ∈ [Kind.eof, .rightBrace] →
    (∃ d y, x c = .error .complained d ∧ y ∈ d.complaints.toList ∧ y.token = t) ∨
      ∃ d, x c = .error .tooDeep d ∧ d.rest = t :: ts

namespace Refuses

theorem bind {x : Parse α} {f : α → Parse β} (h : Refuses x) : Refuses (x >>= f) := by
  intro c t ts hc ht
  rw [bind_apply]
  rcases h c t ts hc ht with ⟨d, y, hd, hy⟩ | ⟨d, hd, hrest⟩
  · rw [hd]
    exact .inl ⟨d, y, rfl, hy⟩
  · rw [hd]
    exact .inr ⟨d, rfl, hrest⟩

theorem tooDeep : Refuses (throw .tooDeep : Parse α) :=
  fun c _ _ hc _ => .inr ⟨c, rfl, hc⟩

theorem fail (p : Problem) : Refuses (fail p : Parse α) := by
  intro c t ts hc _
  exact .inl ⟨_, ⟨c.taken, t, p⟩, fail_apply hc p, by simp, rfl⟩

theorem enter_bind {r : Rule} {x : Parse α} (h : Refuses x) : Refuses (do enter r; x) :=
  fun c t ts hc ht => h { c with events := c.events.push (.entered r) } t ts hc ht

theorem accept?_bind {kinds : List Kind} (hk : .rightBrace ∉ kinds) {f : Option Token → Parse β} (h : Refuses (f none)) :
    Refuses (accept? kinds >>= f) := by
  intro c t ts hc ht
  have hnot : ¬ (t.kind ≠ .eof ∧ t.kind ∈ kinds) := by
    rintro ⟨he, hm⟩
    simp only [List.mem_cons, List.not_mem_nil, or_false] at ht
    rcases ht with ht | ht
    · exact he ht
    · exact hk (ht ▸ hm)
  rw [bind_apply, accept?_cons kinds hc, if_neg hnot]
  exact h c t ts hc ht

theorem blames {σ : Seam} {x : Parse α} (h : Refuses x) {c : Cursor} {t : Token} {ts : List Token} (hc : c.rest = t :: ts)
    (hk : t.kind ∈ σ.spared) : BlamesSpared σ (x c) := by
  rcases h c t ts hc (σ.spared_sub _ hk) with ⟨d, y, hd, hy, rfl⟩ | ⟨d, hd, hrest⟩
  · rw [hd]
    exact .inl ⟨y, hy, hk⟩
  · exact .inr ⟨d, t, ts, hd, hrest, hk⟩

end Refuses

theorem expect_blames {σ : Seam} {c : Cursor} {ws : List Token} (hc : c.rest = [σ.stop]) (hahead : σ.ahead = some ws)
    {kind : Kind} {e : Expected} : BlamesSpared σ (expect kind e c) := by
  have hend : ¬ (σ.stop.kind ≠ .eof ∧ σ.stop.kind ∈ [kind]) := fun h => h.1 σ.stop_eof
  rw [expect, bind_apply, accept?_cons _ hc, if_neg hend]
  exact (Refuses.fail _).blames hc (σ.stop_spared hahead)

theorem Lockstep.from_parting {σ : Seam} {n n' : Nat} {R : List Token → List Token → Prop} {x y : Parse α}
    (h : Lockstep σ n n' σ.Shared R x y) (hx : Refuses x) : Lockstep σ n n' σ.Parting R x y := by
  refine ⟨h.left, h.right, fun c c' hc hn hn' => ?_⟩
  rcases hc.rest.exists_cons with ⟨t, us, us', -, -, hshared⟩ | ⟨w, us, hstop, -, hahead, -⟩
  · exact h.matching c c' ⟨hshared, hc.said⟩ hn hn'
  · exact .inl (hx.blames hstop (σ.stop_spared hahead))

end Parse

namespace Descent

section

variable {turns : Nat}

theorem refuses_primary (expression : Parse Node) : Refuses (primary expression) := by
  unfold primary
  refine .accept?_bind (by decide) (.accept?_bind (by decide) (.accept?_bind (by decide) ?_))
  exact .accept?_bind (by decide) (.accept?_bind (by decide) (.accept?_bind (by decide) (.fail _)))

variable (turns) in
theorem refuses_expressions (limit : Nat) :
    Refuses (expression turns limit) ∧ Refuses (assignment turns limit) ∧
      (∀ levels, Refuses (operand turns limit levels)) ∧ Refuses (unary turns limit) := by
  induction limit with
  | zero => exact ⟨.tooDeep, .tooDeep, fun _ => .tooDeep, .tooDeep⟩
  | succ limit ih =>
    obtain ⟨he, ha, ho, hu⟩ := ih
    refine ⟨?_, ?_, fun levels => ?_, ?_⟩
    · exact .enter_bind ha
    · exact (ho _).bind
    · cases levels with
      | nil => exact hu
      | cons level tighter => exact (ho tighter).bind
    · exact .accept?_bind (by decide) (refuses_primary _)

variable (turns) in
theorem refuses_expression (limit : Nat) : Refuses (expression turns limit) :=
  (refuses_expressions turns limit).1

variable (turns) in
theorem refuses_statement (limit : Nat) : Refuses (statement turns limit) := by
  cases limit with
  | zero => exact .tooDeep
  | succ limit =>
    refine .enter_bind (.accept?_bind (by decide) (.accept?_bind (by decide) (.accept?_bind (by decide) ?_)))
    exact .accept?_bind (by decide) (.accept?_bind (by decide) (refuses_expression turns limit).bind)

end

section

variable {σ : Seam} {n n' : Nat}

theorem primary_lockstep {expression expression' : Parse Node}
    (h : Lockstep σ n n' σ.Shared σ.Shared expression expression') :
    Lockstep σ n n' σ.Shared σ.Shared (primary expression) (primary expression') := by
  unfold primary
  refine (Lockstep.accept? _ (by decide)).bind fun _ => .ite (.pure _) ?_
  refine (Lockstep.accept? _ (by decide)).bind fun _ => .ite (.pure _) ?_
  refine (Lockstep.accept? _ (by decide)).bind fun _ => .ite (.pure _) ?_
  refine (Lockstep.accept? _ (by decide)).bind fun number => ?_
  cases number with
  | some t => exact .pure _
  | none =>
    refine (Lockstep.accept? _ (by decide)).bind fun name => ?_
    cases name with
    | some t => exact .pure _
    | none =>
      refine (Lockstep.accept? _ (by decide)).bind fun _ => .ite ?_ (.fail (by simp))
      exact h.bind fun _ => (Lockstep.expect_shared (by decide) _).bind fun _ => .pure _

theorem assigned_lockstep (i i' : Nat) (equals : Token) (target value : Node) :
    Lockstep σ n n' σ.Shared σ.Shared (assigned i equals target value) (assigned i' equals target value) := by
  unfold assigned
  split
  · exact .pure _
  · exact (Lockstep.complain i i' _ _).bind fun _ => .pure _

variable {turns turns' : Nat}

theorem chain_lockstep {level : Level} {operand operand' : Parse Node} (hk : .semicolon ∉ level.operators)
    (ho : Orderly turns operand) (ho' : Orderly turns' operand')
    (h : Lockstep σ turns turns' σ.Shared σ.Shared operand operand') :
    ∀ n n' left, n ≤ turns → n' ≤ turns' →
      Lockstep σ n n' σ.Shared σ.Shared (chain level operand n left) (chain level operand' n' left) := by
  intro n
  induction n with
  | zero =>
    intro n' left hn hn'
    exact .none_left (orderly_chain ho 0 left hn).to_zero (orderly_chain ho' n' left hn').to_zero (.inl rfl)
  | succ n ih =>
    intro n' left hn hn'
    cases n' with
    | zero =>
      exact .none_left (orderly_chain ho (n + 1) left hn).to_zero (orderly_chain ho' 0 left hn').to_zero (.inr rfl)
    | succ n' =>
      refine .accept?_step hk (fun t => ?_) (.pure left)
      have hoperand := h.fewer (Nat.le_of_succ_le hn) (Nat.le_of_succ_le hn')
      exact hoperand.bind fun right => ih n' _ (Nat.le_of_succ_le hn) (Nat.le_of_succ_le hn')

def assignedIf (value : Parse Node) (target : Node) (i : Nat) : Parse Node := do
  match ← accept? [.equal] with
  | none => return target
  | some equals => do
    let value ← value
    assigned i equals target value

theorem assignedIf_lockstep {value value' : Parse Node} (h : Lockstep σ turns turns' σ.Shared σ.Shared value value')
    (target : Node) (i i' : Nat) :
    Lockstep σ turns turns' σ.Shared σ.Shared (assignedIf value target i) (assignedIf value' target i') := by
  refine (Lockstep.accept? _ (by decide)).bind fun equals => ?_
  cases equals with
  | none => exact .pure _
  | some equals => exact h.bind fun value => assigned_lockstep i i' equals target value

variable (σ turns turns') in
theorem expressions_lockstep {limit limit' : Nat} (h : limit' ≤ limit) :
    Lockstep σ turns turns' σ.Shared σ.Shared (expression turns limit) (expression turns' limit') ∧
      Lockstep σ turns turns' σ.Shared σ.Shared (assignment turns limit) (assignment turns' limit') ∧
      (∀ levels, levels ⊆ Ascent.levels →
        Lockstep σ turns turns' σ.Shared σ.Shared (operand turns limit levels) (operand turns' limit' levels)) ∧
      Lockstep σ turns turns' σ.Shared σ.Shared (unary turns limit) (unary turns' limit') := by
  induction limit' generalizing limit with
  | zero =>
    obtain ⟨he, ha, ho, hu⟩ := orderly_expressions turns limit
    exact ⟨.tooDeep he.to_zero, .tooDeep ha.to_zero, fun levels _ => .tooDeep (ho levels).to_zero, .tooDeep hu.to_zero⟩
  | succ limit' ih =>
    cases limit with
    | zero => exact absurd h (Nat.not_succ_le_zero limit')
    | succ limit =>
      obtain ⟨he, ha, ho, hu⟩ := ih (Nat.le_of_succ_le_succ h)
      refine ⟨?_, ?_, fun levels hlevels => ?_, ?_⟩
      · exact (Lockstep.enter _).bind fun _ => ha
      · exact (ho _ (List.Subset.refl _)).bind fun target => .taken fun i i' => assignedIf_lockstep ha target i i'
      · cases levels with
        | nil => exact hu
        | cons level tighter =>
          obtain ⟨hlevel, htighter⟩ := List.cons_subset.mp hlevels
          have hsemicolon : ∀ l ∈ Ascent.levels, Kind.semicolon ∉ l.operators := by decide
          have hoperand := ho tighter htighter
          refine hoperand.bind fun left => ?_
          exact chain_lockstep (hsemicolon level hlevel) ((orderly_expressions turns limit).2.2.1 tighter)
            ((orderly_expressions turns' limit').2.2.1 tighter) hoperand turns turns' left (Nat.le_refl _) (Nat.le_refl _)
      · refine (Lockstep.accept? _ (by decide)).bind fun operator => ?_
        cases operator with
        | none => exact primary_lockstep he
        | some operator => exact hu.bind fun right => .pure _

variable {expression expression' statement statement' : Parse Node}

theorem refuses_forClause (hr : Refuses expression) {closing : Kind} (hc : closing ∉ [Kind.eof, .rightBrace])
    (e : Expected) : Refuses (forClause expression closing e) := by
  intro c t ts hrest ht
  have hne : t.kind ≠ closing := fun he => hc (he ▸ ht)
  have hclause : Refuses (some <$> expression) := hr.bind
  rw [forClause, peek_bind hrest, if_neg hne]
  exact hclause.bind c t ts hrest ht

section

variable (he : Lockstep σ n n' σ.Shared σ.Shared expression expression')

include he

theorem varDeclaration_lockstep :
    Lockstep σ n n' σ.Shared σ.Parting (varDeclaration expression) (varDeclaration expression') := by
  unfold varDeclaration
  refine (Lockstep.expect_shared (by decide) _).bind fun name => (Lockstep.accept? _ (by decide)).bind fun equals => ?_
  cases equals with
  | none => exact (Lockstep.expect _ _).bind fun _ => .pure _
  | some equals => exact he.bind fun _ => (Lockstep.expect _ _).bind fun _ => .pure _

theorem expressionStatement_lockstep :
    Lockstep σ n n' σ.Shared σ.Parting (expressionStatement expression) (expressionStatement expression') :=
  he.bind fun _ => (Lockstep.expect _ _).bind fun _ => .pure _

theorem printStatement_lockstep :
    Lockstep σ n n' σ.Shared σ.Parting (printStatement expression) (printStatement expression') :=
  he.bind fun _ => (Lockstep.expect _ _).bind fun _ => .pure _

theorem forInitializer_lockstep :
    Lockstep σ n n' σ.Shared σ.Parting (forInitializer expression) (forInitializer expression') := by
  refine .accept?_bind (fun _ => .pure _) ?_
  refine (Lockstep.accept? _ (by decide)).bind fun _ => .ite ?_ ?_
  · exact (varDeclaration_lockstep he).bind fun _ => .pure _
  · exact (expressionStatement_lockstep he).bind fun _ => .pure _

theorem forClause_lockstep {R : List Token → List Token → Prop} {closing : Kind} {e : Expected} (hr : Refuses expression)
    (hc : closing ∉ [Kind.eof, .rightBrace]) (hclose : Lockstep σ n n' σ.Shared R (expect closing e) (expect closing e)) :
    Lockstep σ n n' σ.Parting R (forClause expression closing e) (forClause expression' closing e) := by
  refine Lockstep.from_parting ?_ (refuses_forClause hr hc e)
  refine Lockstep.peek.bind fun t => .ite ?_ ?_
  · exact hclose.bind fun _ => .pure _
  · exact (he.bind fun a => .pure (some a)).bind fun _ => hclose.bind fun _ => .pure _

end

section

variable (he : Lockstep σ n n' σ.Shared σ.Shared expression expression') (hr : Refuses expression)
  (hs : Lockstep σ n n' σ.Parting σ.Parting statement statement')

include he hs

theorem whileStatement_lockstep :
    Lockstep σ n n' σ.Shared σ.Parting (whileStatement expression statement) (whileStatement expression' statement') := by
  refine (Lockstep.expect_shared (by decide) _).bind fun _ => he.bind fun _ => ?_
  exact (Lockstep.expect_shared (by decide) _).bind fun _ => hs.of_parting.bind fun _ => .pure _

theorem ifStatement_lockstep :
    Lockstep σ n n' σ.Shared σ.Parting (ifStatement expression statement) (ifStatement expression' statement') := by
  refine (Lockstep.expect_shared (by decide) _).bind fun _ => he.bind fun _ => ?_
  refine (Lockstep.expect_shared (by decide) _).bind fun _ => hs.of_parting.bind fun _ => ?_
  exact .accept?_else (fun _ => hs.bind fun _ => .pure _) (.pure _)

include hr

theorem forStatement_lockstep :
    Lockstep σ n n' σ.Shared σ.Parting (forStatement expression statement) (forStatement expression' statement') := by
  refine (Lockstep.expect_shared (by decide) _).bind fun _ => (forInitializer_lockstep he).bind fun _ => ?_
  refine (forClause_lockstep he hr (by decide) (.expect _ _)).bind fun _ => ?_
  refine (forClause_lockstep he hr (by decide) (.expect _ _)).bind fun _ => ?_
  exact hs.bind fun _ => .pure _

end

def Moves (part : Parse (Option Node)) : Prop :=
  ∀ c a c' t, c.rest.head? = some t → t.kind ≠ .eof → part c = .ok a c' → c'.rest.length < c.rest.length

def Follows (σ : Seam) (n' : Nat) (kinds kinds' : List Kind) (part' : Parse (Option Node)) (before before' : List Node)
    (r r' : EStateM.Result Halt Cursor (List Node)) : Prop :=
  BlamesSpared σ r ∨ TooDeep true r' ∨ (∃ e d d', r = .error e d ∧ r' = .error e d' ∧ d.Beside σ σ.Shared d') ∨
    ∃ as d d' m', r = .ok (before.reverse ++ as) d ∧ d.Beside σ σ.Parting d' ∧ (∃ t ∈ d.rest.head?, t.kind ∈ kinds) ∧
      d'.rest.length ≤ m' ∧ m' ≤ n' ∧ r' = untilKind kinds' part' m' (as.reverse ++ before') d'

theorem untilKind_here {kinds : List Kind} {part : Parse (Option Node)} {m : Nat} {before : List Node} {c : Cursor}
    {t : Token} {ts : List Token} (hrest : c.rest = t :: ts) (hk : t.kind ∈ kinds) :
    untilKind kinds part (m + 1) before c = .ok before.reverse c := by
  rw [untilKind, peek_bind hrest, if_pos hk]
  rfl

theorem Follows.here {kinds kinds' : List Kind} {part part' : Parse (Option Node)} {m m' : Nat}
    {before before' : List Node} {c c' : Cursor} {t : Token} {ts : List Token} (hc : c.Beside σ σ.Parting c')
    (hrest : c.rest = t :: ts) (hk : t.kind ∈ kinds) (hlen' : c'.rest.length ≤ m') (hn' : m' ≤ n') :
    Follows σ n' kinds kinds' part' before before' (untilKind kinds part (m + 1) before c)
      (untilKind kinds' part' m' before' c') := by
  rw [untilKind_here hrest hk]
  exact .inr (.inr (.inr ⟨[], c, c', m', by rw [List.append_nil], hc, ⟨t, by simp [hrest], hk⟩, hlen', hn', rfl⟩))

theorem untilKind_follows {kinds kinds' : List Kind} {part part' : Parse (Option Node)}
    (h : Lockstep σ n n' σ.Shared σ.Parting part part') (ho : Orderly n part) (ho' : Orderly n' part') (hm : Moves part)
    (hm' : Moves part') (heof : .eof ∈ kinds) (heof' : .eof ∈ kinds')
    (hblames : ∀ c t ts, c.rest = t :: ts → t.kind ∈ kinds' → t.kind ∉ kinds → BlamesSpared σ (part c)) :
    ∀ m m' before before' c c', c.Beside σ σ.Parting c' → c.rest.length ≤ m → m ≤ n → c'.rest.length ≤ m' → m' ≤ n' →
      Follows σ n' kinds kinds' part' before before' (untilKind kinds part m before c)
        (untilKind kinds' part' m' before' c') := by
  intro m
  -- each part takes a token, so neither sequence runs out of turns before it runs out of tokens
  induction m with
  | zero =>
    intro m' before before' c c' hc hm _ _ _
    exact absurd (List.length_eq_zero_iff.mp (Nat.le_zero.mp hm)) hc.rest.ne_nil.1
  | succ m ih =>
    intro m' before before' c c' hc hlen hn hlen' hn'
    cases m' with
    | zero => exact absurd (List.length_eq_zero_iff.mp (Nat.le_zero.mp hlen')) hc.rest.ne_nil.2
    | succ m' =>
      have hcont : ∀ as, Orderly m (untilKind kinds part m as) :=
        fun as => orderly_untilKind heof ho hm m as (Nat.le_of_succ_le hn)
      have hcont' : ∀ as, Orderly m' (untilKind kinds' part' m' as) :=
        fun as => orderly_untilKind heof' ho' hm' m' as (Nat.le_of_succ_le hn')
      rcases hc.rest.exists_cons with ⟨t, us, us', hrest, hrest', hshared⟩ | ⟨w, us, hstop, -, -, -⟩
      · by_cases hk : t.kind ∈ kinds
        · exact .here hc hrest hk hlen' hn'
        by_cases hk' : t.kind ∈ kinds'
        · rw [untilKind, peek_bind hrest, if_neg hk]
          exact .inl (blamesSpared_bind (hblames c t us hrest hk' hk) fun a => hcont _)
        have hne : t.kind ≠ .eof := fun he => hk (he ▸ heof)
        have hmatching := h.matching c c' ⟨hshared, hc.said⟩ (Nat.le_trans hlen hn) (Nat.le_trans hlen' hn')
        rw [untilKind, untilKind, peek_bind hrest, peek_bind hrest', if_neg hk, if_neg hk']
        rcases hmatching with hb | hd | hs
        · exact .inl (blamesSpared_bind hb fun a => hcont _)
        · exact .inr (.inl (tooDeep_bind hd fun a => hcont' _))
        rw [bind_apply, bind_apply]
        generalize hx : part c = r at hs ⊢
        generalize hy : part' c' = r' at hs ⊢
        cases hs with
        | error hd => exact .inr (.inr (.inl ⟨_, _, _, rfl, rfl, hd⟩))
        | @ok a d d' hd =>
          have hlt := Nat.lt_of_lt_of_le (hm c a d t (by simp [hrest]) hne hx) hlen
          have hlt' := Nat.lt_of_lt_of_le (hm' c' a d' t (by simp [hrest']) hne hy) hlen'
          have hnext := ih m' (a.toList ++ before) (a.toList ++ before') d d' hd (Nat.le_of_lt_succ hlt)
            (Nat.le_of_succ_le hn) (Nat.le_of_lt_succ hlt') (Nat.le_of_succ_le hn')
          rcases hnext with hb | hdeep | herror | ⟨as, f, f', k, hok, hf, hend, hk, hk', hy⟩
          · exact .inl hb
          · exact .inr (.inl hdeep)
          · exact .inr (.inr (.inl herror))
          · have hreverse : a.toList.reverse = a.toList := by cases a <;> rfl
            refine .inr (.inr (.inr ⟨a.toList ++ as, f, f', k, ?_, hf, hend, hk, hk', ?_⟩))
            · refine hok.trans ?_
              rw [List.reverse_append, hreverse, List.append_assoc]
            · refine hy.trans ?_
              rw [List.reverse_append, hreverse, List.append_assoc]
      · exact .here hc hstop (σ.stop_eof ▸ heof) hlen' hn'

theorem block_lockstep {declaration declaration' : Parse (Option Node)}
    (h : Lockstep σ n n' σ.Shared σ.Parting declaration declaration') (ho : Orderly n declaration)
    (ho' : Orderly n' declaration') (hm : Moves declaration) (hm' : Moves declaration') :
    Lockstep σ n n' σ.Shared σ.Parting (block n declaration) (block n' declaration') := by
  refine ⟨(orderly_block ho hm).to_zero, (orderly_block ho' hm').to_zero, fun c c' hc hlen hlen' => ?_⟩
  have hfollows : Follows σ n' [.rightBrace, .eof] [.rightBrace, .eof] declaration' [] []
      (untilKind [.rightBrace, .eof] declaration n [] c) (untilKind [.rightBrace, .eof] declaration' n' [] c') :=
    untilKind_follows h ho ho' hm hm' (by decide) (by decide) (fun _ _ _ _ hk hk' => absurd hk hk') n n' [] [] c c'
      ⟨.shared hc.rest, hc.said⟩ hlen (Nat.le_refl n) hlen' (Nat.le_refl n')
  have hbrace : ∀ ns, Lockstep σ n n' σ.Shared σ.Parting
      (do let _ ← expect .rightBrace .braceAfterBlock; return Node.block ns)
      (do let _ ← expect .rightBrace .braceAfterBlock; return Node.block ns) :=
    fun ns => (Lockstep.expect _ _).bind fun _ => .pure _
  rcases hfollows with hb | hd | ⟨e, d, d', hx, hy, hd⟩ | ⟨as, d, d', m', hok, hd, ⟨t, ht, hk⟩, hm', hn', hy⟩
  · exact .inl (blamesSpared_bind hb fun ns => (hbrace ns).left)
  · exact .inr (.inl (tooDeep_bind hd fun ns => (hbrace ns).right))
  · rw [block, block, bind_apply, bind_apply, hx, hy]
    exact .inr (.inr (.error hd))
  have hlength : d.rest.length ≤ n := by
    have horderly : Orderly n (untilKind [.rightBrace, .eof] declaration n []) :=
      orderly_untilKind (by decide) ho hm n [] (Nat.le_refl n)
    have hreaches := (horderly c).reaches
    rw [hok] at hreaches
    exact Nat.le_trans hreaches.length_le hlen
  rcases hd.rest.exists_cons with ⟨u, us, us', hrest, hrest', hshared⟩ | ⟨w, us, hstop, -, hahead, -⟩
  · -- both stand at the token that ends the block or the text
    rw [hrest, List.head?_cons, Option.mem_some] at ht
    have hpos : 0 < m' := Nat.lt_of_lt_of_le (by simp [hrest']) hm'
    obtain ⟨k, rfl⟩ := Nat.exists_eq_add_one.mpr hpos
    rw [untilKind_here hrest' (ht ▸ hk)] at hy
    rw [block, block, bind_apply, bind_apply, hok, hy]
    simp only [List.append_nil, List.reverse_reverse, List.reverse_nil, List.nil_append]
    exact (hbrace as).matching d d' ⟨hshared, hd.said⟩ hlength (Nat.le_trans hm' hn')
  · -- the first one finds no brace at its end
    rw [block, bind_apply, hok]
    exact .inl (blamesSpared_bind (expect_blames hstop hahead) fun _ => (Orderly.pure _ : Orderly 0 _))

variable (turns turns') in
theorem statements_lockstep {limit limit' : Nat} (h : limit' ≤ limit) :
    Lockstep σ turns turns' σ.Parting σ.Parting (Descent.statement turns limit) (Descent.statement turns' limit') ∧
      Lockstep σ turns turns' σ.Shared σ.Parting (declaration turns limit) (declaration turns' limit') := by
  induction limit' generalizing limit with
  | zero =>
    obtain ⟨⟨hs, -⟩, hd, -⟩ := orderly_statements turns limit
    exact ⟨.tooDeep hs.to_zero, .tooDeep hd.to_zero⟩
  | succ limit' ih =>
    cases limit with
    | zero => exact absurd h (Nat.not_succ_le_zero limit')
    | succ limit =>
      obtain ⟨hs, hd⟩ := ih (Nat.le_of_succ_le_succ h)
      obtain ⟨he, -⟩ := expressions_lockstep σ turns turns' (Nat.le_of_succ_le_succ h)
      have hr := refuses_expression turns limit
      obtain ⟨-, ho, hm⟩ := orderly_statements turns limit
      obtain ⟨-, ho', hm'⟩ := orderly_statements turns' limit'
      refine ⟨Lockstep.from_parting ?_ (refuses_statement turns (limit + 1)), ?_⟩
      · refine (Lockstep.enter _).bind fun _ => ?_
        refine (Lockstep.accept? _ (by decide)).bind fun _ => .ite (forStatement_lockstep he hr hs) ?_
        refine (Lockstep.accept? _ (by decide)).bind fun _ => .ite (ifStatement_lockstep he hs) ?_
        refine (Lockstep.accept? _ (by decide)).bind fun _ => .ite (printStatement_lockstep he) ?_
        refine (Lockstep.accept? _ (by decide)).bind fun _ => .ite (whileStatement_lockstep he hs) ?_
        refine (Lockstep.accept? _ (by decide)).bind fun _ => .ite (block_lockstep hd ho ho' hm hm') ?_
        exact expressionStatement_lockstep he
      · refine (Lockstep.enter _).bind fun _ => .recover ?_
        exact (Lockstep.accept? _ (by decide)).bind fun _ => .ite (varDeclaration_lockstep he) hs.of_parting

theorem declaration_blames {limit : Nat} {c : Cursor} {t : Token} {ts : List Token} (hc : c.rest = t :: ts)
    (hk : t.kind ∈ σ.spared) : BlamesSpared σ (declaration turns limit c) := by
  cases limit with
  | zero => exact .inr ⟨c, t, ts, rfl, hc, hk⟩
  | succ limit =>
    have hrefuses : Refuses (do
        if (← accept? [.varWord]).isSome then return ← varDeclaration (Descent.expression turns limit)
        Descent.statement turns limit) := .accept?_bind (by decide) (refuses_statement turns limit)
    have hentered : (entered .declaration c).rest = t :: ts := hc
    exact blamesSpared_recover (hrefuses.blames hentered hk)

end

end Descent

end Lox
