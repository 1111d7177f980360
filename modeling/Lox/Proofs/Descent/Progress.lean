import Lox.Proofs.Descent.Acceptance

namespace Lox

open Parse

def Cursor.Movable (c : Cursor) : Prop :=
  c.consumed ≠ [] ∨ ∀ t ∈ c.rest.head?, t.kind ≠ .eof

theorem Cursor.Reaches.movable {c d : Cursor} (h : c.Reaches d) (hc : c.Movable) : d.Movable := by
  obtain ⟨ts, hts, hte, -⟩ := h.tokens
  have hconsumed := h.consumed_eq hts
  rcases hc with hc | hc
  · exact .inl (by simp [hconsumed, hc])
  cases ts with
  | nil =>
    rw [List.nil_append] at hts
    exact .inr (hts ▸ hc)
  | cons t ts => exact .inl (by simp [hconsumed])

namespace Parse

variable {α β : Type}

section

-- what comes of asking for the token before the first one
variable (missing : Parse Token)

def previous : Parse Token := fun c =>
  match c.consumed.getLast? with
  | some t => .ok t c
  | none => missing c

def advance : Parse Token := do
  let t ← peek
  if t.kind ≠ .eof then modify fun c => skip [t] c.rest.tail c
  previous missing

def check (kind : Kind) : Parse Bool := do
  let t ← peek
  return t.kind ≠ .eof ∧ t.kind = kind

def matchAny : List Kind → Parse Bool
  | [] => return false
  | kind :: kinds => do
    if ← check kind then
      let _ ← advance missing
      return true
    else matchAny kinds

def acceptStepwise (kinds : List Kind) : Parse (Option Token) := do
  if ← matchAny missing kinds then return some (← previous missing)
  return none

def expectStepwise (kind : Kind) (e : Expected) : Parse Token := do
  if ← check kind then advance missing
  else fail (.missing e)

def advanceOn : Nat → Parse Unit
  | 0 => throw .noEnd
  | turns + 1 => do
    let t ← peek
    if t.kind = .eof then return ()
    else if (← previous missing).kind = .semicolon then return ()
    else if t.kind.startsStatement then return ()
    else do
      let _ ← advance missing
      advanceOn turns

def synchronizeStepwise : Parse Unit := do
  let c ← get
  let _ ← advance missing
  advanceOn missing (c.rest.length + 1)

variable {missing} {c : Cursor} {t u : Token} {ts : List Token}

theorem previous_of_consumed (h : c.consumed.getLast? = some t) : previous missing c = .ok t c := by
  rw [previous, h]

theorem consumed_getLast? (t : Token) (ts : List Token) (c : Cursor) : (skip [t] ts c).consumed.getLast? = some t := by
  rw [consumed_skip, List.getLast?_concat]

theorem advance_apply (hc : c.rest = t :: ts) (ht : t.kind ≠ .eof) : advance missing c = .ok t (skip [t] ts c) := by
  rw [advance, peek_bind hc, if_pos ht]
  change previous missing (skip [t] c.rest.tail c) = _
  rw [hc, List.tail_cons, previous_of_consumed (consumed_getLast? t ts c)]

theorem advance_end (hc : c.rest = t :: ts) (ht : t.kind = .eof) (hu : c.consumed.getLast? = some u) :
    advance missing c = .ok u c := by
  rw [advance, peek_bind hc, if_neg (not_not_intro ht)]
  exact previous_of_consumed hu

theorem advance_nil (hc : c.rest = []) : advance missing c = .error .noEnd c := by
  rw [advance, bind_apply, peek, hc]

theorem check_of (hc : c.rest = t :: ts) {kind : Kind} (hk : t.kind ≠ .eof ∧ t.kind = kind) :
    check kind c = .ok true c := by
  rw [check, peek_bind hc]
  exact congrArg (EStateM.Result.ok · c) (decide_eq_true hk)

theorem check_of_not (hc : c.rest = t :: ts) {kind : Kind} (hk : ¬ (t.kind ≠ .eof ∧ t.kind = kind)) :
    check kind c = .ok false c := by
  rw [check, peek_bind hc]
  exact congrArg (EStateM.Result.ok · c) (decide_eq_false hk)

theorem check_nil (hc : c.rest = []) (kind : Kind) : check kind c = .error .noEnd c := by
  rw [check, bind_apply, peek, hc]

theorem matchAny_apply (hc : c.rest = t :: ts) (kinds : List Kind) : matchAny missing kinds c =
    if t.kind ≠ .eof ∧ t.kind ∈ kinds then .ok true (skip [t] ts c) else .ok false c := by
  induction kinds with
  | nil => exact (if_neg fun h => List.not_mem_nil h.2).symm
  | cons kind kinds ih =>
    rw [matchAny, bind_apply]
    by_cases hk : t.kind ≠ .eof ∧ t.kind = kind
    · rw [check_of hc hk, if_pos ⟨hk.1, by simp [hk.2]⟩]
      change (advance missing >>= fun _ => pure true) c = _
      rw [bind_apply, advance_apply hc hk.1]
      rfl
    · rw [check_of_not hc hk]
      refine ih.trans ?_
      by_cases hm : t.kind ≠ .eof ∧ t.kind ∈ kinds
      · rw [if_pos hm, if_pos ⟨hm.1, List.mem_cons_of_mem kind hm.2⟩]
      · rw [if_neg hm, if_neg fun h => hm ⟨h.1, (List.mem_cons.mp h.2).resolve_left fun he => hk ⟨h.1, he⟩⟩]

theorem accept?_eq {kinds : List Kind} (h : kinds ≠ []) : accept? kinds = acceptStepwise missing kinds := by
  funext c
  unfold acceptStepwise
  cases hc : c.rest with
  | nil =>
    obtain ⟨kind, kinds, rfl⟩ := List.exists_cons_of_ne_nil h
    rw [bind_apply, matchAny, bind_apply, check_nil hc, accept?, hc]
  | cons t ts =>
    rw [accept?_cons kinds hc, bind_apply, matchAny_apply hc]
    split
    · change _ = (previous missing >>= fun t => pure (some t)) (skip [t] ts c)
      rw [bind_apply, previous_of_consumed (consumed_getLast? t ts c)]
      rfl
    · rfl

theorem expect_eq (kind : Kind) (e : Expected) : expect kind e = expectStepwise missing kind e := by
  funext c
  unfold expectStepwise
  cases hc : c.rest with
  | nil => rw [expect, bind_apply, accept?, hc, bind_apply, check_nil hc]
  | cons t ts =>
    rw [expect, bind_apply, accept?_cons _ hc, bind_apply]
    by_cases hk : t.kind ≠ .eof ∧ t.kind = kind
    · rw [check_of hc hk, if_pos ⟨hk.1, by simp [hk.2]⟩]
      exact (advance_apply hc hk.1).symm
    · rw [check_of_not hc hk, if_neg fun h => hk ⟨h.1, List.mem_singleton.mp h.2⟩]
      rfl

theorem skip_skip (ts us rest rest' : List Token) (c : Cursor) :
    skip us rest (skip ts rest' c) = skip (ts ++ us) rest c := by
  simp [skip, Nat.add_assoc]

theorem skip_nil {rest : List Token} (h : c.rest = rest) : skip [] rest c = c := by
  simp [skip, ← h]

theorem toBoundary_here {last : Kind} (h : t.kind = .eof ∨ last = .semicolon ∨ t.kind.startsStatement = true) :
    toBoundary last (t :: ts) = ([], t :: ts) := by
  rw [toBoundary, if_pos h]

theorem toBoundary_behind {last : Kind} (h : ¬ (t.kind = .eof ∨ last = .semicolon ∨ t.kind.startsStatement = true)) :
    toBoundary last (t :: ts) = (t :: (toBoundary t.kind ts).1, (toBoundary t.kind ts).2) := by
  rw [toBoundary, if_neg h]

theorem advanceOn_apply {n : Nat} (hn : c.rest.length < n) (hu : c.consumed.getLast? = some u) :
    advanceOn missing n c =
      let (skipped, rest) := toBoundary u.kind c.rest
      if rest.isEmpty then .error .noEnd (skip skipped rest c) else .ok () (skip skipped rest c) := by
  induction n generalizing c u with
  | zero => exact absurd hn (Nat.not_lt_zero _)
  | succ n ih =>
    rw [advanceOn]
    cases hc : c.rest with
    | nil =>
      rw [bind_apply, peek, hc]
      change _ = EStateM.Result.error Halt.noEnd (skip [] [] c)
      rw [skip_nil hc]
    | cons t ts =>
      have hhere : c = skip [] (t :: ts) c := (skip_nil hc).symm
      rw [peek_bind hc]
      by_cases he : t.kind = .eof
      · rw [if_pos he, toBoundary_here (.inl he)]
        exact congrArg (EStateM.Result.ok ()) hhere
      rw [if_neg he, bind_apply, previous_of_consumed hu]
      dsimp only
      by_cases hs : u.kind = .semicolon
      · rw [if_pos hs, toBoundary_here (.inr (.inl hs))]
        exact congrArg (EStateM.Result.ok ()) hhere
      rw [if_neg hs]
      by_cases hw : t.kind.startsStatement = true
      · rw [if_pos hw, toBoundary_here (.inr (.inr hw))]
        exact congrArg (EStateM.Result.ok ()) hhere
      have hlen : (skip [t] ts c).rest.length < n := by
        rw [hc, List.length_cons] at hn
        exact Nat.lt_of_succ_lt_succ hn
      rw [if_neg hw, bind_apply, advance_apply hc he]
      dsimp only
      rw [ih hlen (consumed_getLast? t ts c), toBoundary_behind (by simp [he, hs, hw])]
      simp only [skip_skip]
      rfl

theorem synchronizeStepwise_apply (hc : c.Movable) : synchronizeStepwise missing c = synchronize c := by
  change (advance missing >>= fun _ => advanceOn missing (c.rest.length + 1)) c = _
  rw [bind_apply]
  cases hr : c.rest with
  | nil => rw [advance_nil hr, synchronize, hr]
  | cons t ts =>
    rw [synchronize_cons hr]
    by_cases he : t.kind = .eof
    · have hconsumed : c.consumed ≠ [] := hc.resolve_right fun h => h t (by simp [hr]) he
      have hlast := List.getLast?_eq_some_getLast hconsumed
      rw [if_pos he, advance_end hr he hlast]
      dsimp only
      rw [advanceOn_apply (by simp [hr]) hlast, hr, toBoundary_here (.inl he)]
      exact congrArg (EStateM.Result.ok ()) (skip_nil hr)
    · rw [if_neg he, advance_apply hr he]
      dsimp only
      have hlen : (skip [t] ts c).rest.length < (t :: ts).length + 1 := by
        change ts.length < ts.length + 1 + 1
        omega
      rw [advanceOn_apply hlen (consumed_getLast? t ts c)]
      simp only [skip_skip]
      rfl

end

def Agree (x y : Parse α) : Prop :=
  ∀ c, c.Movable → x c = y c

def recoverBy (sync : Parse Unit) (part : Parse α) : Parse (Option α) := fun c =>
  match part c with
  | .ok a c => .ok (some a) c
  | .error .complained c => (do sync; return none : Parse (Option α)) c
  | .error .tooDeep c => (do complainHere .nestingTooDeep; sync; return none : Parse (Option α)) c
  | .error .noEnd c => .error .noEnd c

namespace Agree

theorem refl (x : Parse α) : Agree x x :=
  fun _ _ => rfl

variable (turns : Nat)

theorem bind {x y : Parse α} {f g : α → Parse β} (h : Agree x y) (ho : Orderly turns y) (hf : ∀ a, Agree (f a) (g a)) :
    Agree (x >>= f) (y >>= g) := by
  intro c hc
  have hreaches := (ho c).reaches
  rw [bind_apply, bind_apply, h c hc]
  cases hy : y c with
  | error e d => rfl
  | ok a d =>
    rw [hy] at hreaches
    exact hf a d (hreaches.movable hc)

theorem bind_right {y : Parse α} {f g : α → Parse β} (ho : Orderly turns y) (hf : ∀ a, Agree (f a) (g a)) :
    Agree (y >>= f) (y >>= g) :=
  (refl y).bind turns ho hf

theorem ite {p : Prop} [Decidable p] {x y x' y' : Parse α} (h : Agree x x') (h' : Agree y y') :
    Agree (if p then x else y) (if p then x' else y') := by
  split
  · exact h
  · exact h'

theorem recoverBy {sync : Parse Unit} {x y : Parse α} (hsync : Agree sync synchronize) (h : Agree x y)
    (ho : Orderly turns y) : Agree (recoverBy sync x) (recover y) := by
  intro c hc
  have hreaches := (ho c).reaches
  have hnone : Agree (do sync; return none : Parse (Option α)) (do synchronize; return none) :=
    hsync.bind turns orderly_synchronize fun _ => .refl _
  have hdeep : Agree (do complainHere .nestingTooDeep; sync; return none : Parse (Option α))
      (do complainHere .nestingTooDeep; synchronize; return none) :=
    bind_right turns (orderly_complainHere _) fun _ => hnone
  unfold Parse.recoverBy recover
  rw [h c hc]
  cases hy : y c with
  | ok a d => rfl
  | error e d =>
    rw [hy] at hreaches
    cases e with
    | complained => exact hnone d (hreaches.movable hc)
    | tooDeep => exact hdeep d (hreaches.movable hc)
    | noEnd => rfl

theorem untilKind {kinds : List Kind} (hk : .eof ∈ kinds) {x y : Parse (Option α)} (h : Agree x y) (n : Nat)
    (before : List α) : untilKind kinds x n before = untilKind kinds y n before := by
  induction n generalizing before with
  | zero => rfl
  | succ n ih =>
    funext c
    rw [Parse.untilKind, Parse.untilKind]
    cases hc : c.rest with
    | nil =>
      rw [bind_apply, bind_apply, peek]
      simp only [hc]
    | cons t ts =>
      rw [peek_bind hc, peek_bind hc]
      split
      · rfl
      · rename_i hm
        have hmovable : c.Movable := .inr fun u hu he => hm (by
          rw [hc, List.head?_cons, Option.mem_some] at hu
          rwa [hu, he])
        rw [bind_apply, bind_apply, h c hmovable]
        split
        · rw [ih]
        · rfl

end Agree

end Parse

namespace Descent

section

variable (sync : Parse Unit) (turns : Nat)

mutual

def statementBy : Nat → Parse Node
  | 0 => throw .tooDeep
  | limit + 1 => do
    enter .statement
    if (← accept? [.forWord]).isSome then
      return ← forStatement (expression turns limit) (statementBy limit)
    if (← accept? [.ifWord]).isSome then
      return ← ifStatement (expression turns limit) (statementBy limit)
    if (← accept? [.printWord]).isSome then
      return ← printStatement (expression turns limit)
    if (← accept? [.whileWord]).isSome then
      return ← whileStatement (expression turns limit) (statementBy limit)
    if (← accept? [.leftBrace]).isSome then
      return ← block turns (declarationBy limit)
    expressionStatement (expression turns limit)

def declarationBy : Nat → Parse (Option Node)
  | 0 => throw .tooDeep
  | limit + 1 => do
    enter .declaration
    recoverBy sync do
      if (← accept? [.varWord]).isSome then
        return ← varDeclaration (expression turns limit)
      statementBy limit

end

end

def programBy (sync : Parse Unit) (limit : Nat) (tokens : List Token) : EStateM.Result Halt Cursor (List Node) :=
  untilKind [.eof] (declarationBy sync tokens.length limit) tokens.length [] (Cursor.start tokens)

section

variable {sync : Parse Unit} {turns : Nat} {expression statement statement' : Parse Node}

theorem forStatement_agree (he : Orderly turns expression) (h : Agree statement' statement) (hs : Orderly turns statement) :
    Agree (forStatement expression statement') (forStatement expression statement) :=
  .bind_right turns (orderly_expect _ _) fun _ => .bind_right turns (orderly_forInitializer he) fun _ =>
    .bind_right turns (orderly_forClause he _ _) fun _ => .bind_right turns (orderly_forClause he _ _) fun _ =>
      h.bind turns hs fun _ => .refl _

theorem ifStatement_agree (he : Orderly turns expression) (h : Agree statement' statement) (hs : Orderly turns statement) :
    Agree (ifStatement expression statement') (ifStatement expression statement) := by
  refine .bind_right turns (orderly_expect _ _) fun _ => .bind_right turns he fun _ =>
    .bind_right turns (orderly_expect _ _) fun _ => h.bind turns hs fun _ =>
      .bind_right turns (orderly_accept? _) fun word => ?_
  cases word with
  | none => exact .refl _
  | some _ => exact h.bind turns hs fun _ => .refl _

theorem whileStatement_agree (he : Orderly turns expression) (h : Agree statement' statement)
    (hs : Orderly turns statement) :
    Agree (whileStatement expression statement') (whileStatement expression statement) :=
  .bind_right turns (orderly_expect _ _) fun _ => .bind_right turns he fun _ =>
    .bind_right turns (orderly_expect _ _) fun _ => h.bind turns hs fun _ => .refl _

theorem block_agree {declaration declaration' : Parse (Option Node)} (h : Agree declaration' declaration) :
    Agree (block turns declaration') (block turns declaration) := by
  intro c _
  unfold block
  rw [h.untilKind (by decide)]

variable (turns) in
theorem statements_agree (hsync : Agree sync synchronize) (limit : Nat) :
    Agree (statementBy sync turns limit) (Descent.statement turns limit) ∧
      Agree (declarationBy sync turns limit) (declaration turns limit) := by
  induction limit with
  | zero => exact ⟨.refl _, .refl _⟩
  | succ limit ih =>
    obtain ⟨hs, hd⟩ := ih
    have he := orderly_expression turns limit
    have hos := (orderly_statements turns limit).1.1
    refine ⟨.bind_right turns (orderly_enter _) fun _ => ?_, .bind_right turns (orderly_enter _) fun _ => ?_⟩
    · refine .bind_right turns (orderly_accept? _) fun _ => .ite (forStatement_agree he hs hos) ?_
      refine .bind_right turns (orderly_accept? _) fun _ => .ite (ifStatement_agree he hs hos) ?_
      refine .bind_right turns (orderly_accept? _) fun _ => .ite (.refl _) ?_
      refine .bind_right turns (orderly_accept? _) fun _ => .ite (whileStatement_agree he hs hos) ?_
      exact .bind_right turns (orderly_accept? _) fun _ => .ite (block_agree hd) (.refl _)
    · refine .recoverBy turns hsync ?_ ?_
      · exact .bind_right turns (orderly_accept? _) fun _ => .ite (.refl _) hs
      · exact (orderly_accept? _).bind fun _ => .ite (orderly_varDeclaration he) hos

theorem programBy_eq (hsync : Agree sync synchronize) (limit : Nat) (tokens : List Token) :
    programBy sync limit tokens = program limit tokens := by
  unfold programBy program
  rw [(statements_agree tokens.length hsync limit).2.untilKind (by decide)]

end

theorem untilKind_ends {α : Type} {kinds : List Kind} {part : Parse (Option α)} {n : Nat} {before as : List α}
    {c d : Cursor} (h : untilKind kinds part n before c = .ok as d) : ∃ t ts, d.rest = t :: ts ∧ t.kind ∈ kinds := by
  induction n generalizing before c with
  | zero => cases h
  | succ n ih =>
    rw [untilKind] at h
    cases hc : c.rest with
    | nil =>
      rw [bind_apply, peek, hc] at h
      cases h
    | cons t ts =>
      rw [peek_bind hc] at h
      by_cases hk : t.kind ∈ kinds
      · rw [if_pos hk] at h
        cases h
        exact ⟨t, ts, hc, hk⟩
      · rw [if_neg hk] at h
        obtain ⟨a, c', -, h⟩ := bind_eq_ok.mp h
        exact ih h

theorem first_end_unique {before before' behind behind' : List Token} {e e' : Token}
    (h : before ++ e :: behind = before' ++ e' :: behind') (hb : ∀ t ∈ before, t.kind ≠ .eof) (he : e.kind = .eof)
    (hb' : ∀ t ∈ before', t.kind ≠ .eof) (he' : e'.kind = .eof) : before = before' ∧ e :: behind = e' :: behind' := by
  induction before generalizing before' with
  | nil =>
    cases before' with
    | nil => exact ⟨rfl, h⟩
    | cons t ts =>
      cases h
      exact absurd he (hb' e (by simp))
  | cons u us ih =>
    cases before' with
    | nil =>
      cases h
      exact absurd he' (hb e' (by simp))
    | cons t ts =>
      simp only [List.cons_append, List.cons.injEq] at h
      obtain ⟨rfl, h⟩ := h
      obtain ⟨rfl, hbehind⟩ := ih h (fun v hv => hb v (by simp [hv])) (fun v hv => hb' v (by simp [hv]))
      exact ⟨rfl, hbehind⟩

theorem program_reaches (limit : Nat) (tokens : List Token) :
    Outcome tokens.length (Cursor.start tokens) (program limit tokens) :=
  orderly_declarations tokens.length [.eof] (by simp) limit tokens.length [] (Nat.le_refl _) (Cursor.start tokens)

/-- Reading takes each token before the first end token once and ends there; without an end token it takes them all and
then has none. Whatever came of asking for the token before the first one, it would read the same. -/
theorem program_consumes {limit : Nat} (hl : 0 < limit) (tokens : List Token) :
    (∀ before e behind, tokens = before ++ e :: behind → (∀ t ∈ before, t.kind ≠ .eof) → e.kind = .eof →
      ∃ ns c, program limit tokens = .ok ns c ∧ c.taken = before.length ∧ c.rest = e :: behind ∧
        c.consumed = before) ∧
    ((∀ t ∈ tokens, t.kind ≠ .eof) →
      ∃ c, program limit tokens = .error .noEnd c ∧ c.taken = tokens.length ∧ c.rest = [] ∧ c.consumed = tokens) ∧
    ∀ missing, programBy (synchronizeStepwise missing) limit tokens = program limit tokens ∧
      (∀ kinds, kinds ≠ [] → accept? kinds = acceptStepwise missing kinds) ∧
      ∀ kind e, expect kind e = expectStepwise missing kind e := by
  have hreaches := program_reaches limit tokens
  refine ⟨fun before e behind heq hbefore he => ?_, fun hnone => ?_, fun missing => ⟨?_, ?_, ?_⟩⟩
  · have hend : ∃ t ∈ tokens, t.kind = .eof := ⟨e, by simp [heq], he⟩
    obtain ⟨ns, c, hc⟩ := program_ends hl hend
    rw [hc] at hreaches
    obtain ⟨ts, hts, hte, htaken⟩ := Cursor.Reaches.tokens hreaches
    obtain ⟨t, us, hrest, ht⟩ := untilKind_ends hc
    have htokens : tokens = ts ++ c.rest := hts
    have hconsumed : c.consumed ++ c.rest = tokens := hreaches.consumed
    have hends : before ++ e :: behind = ts ++ t :: us := by rw [← heq, htokens, hrest]
    obtain ⟨rfl, hbehind⟩ := first_end_unique hends hbefore he hte (List.mem_singleton.mp ht)
    rw [← hbehind] at hrest
    rw [hrest, heq] at hconsumed
    refine ⟨ns, c, hc, ?_, hrest, List.append_cancel_right hconsumed⟩
    rw [htaken]
    exact Nat.zero_add _
  · cases hc : program limit tokens with
    | ok ns c =>
      rw [hc] at hreaches
      obtain ⟨ts, hts, -, -⟩ := Cursor.Reaches.tokens hreaches
      obtain ⟨t, us, hrest, ht⟩ := untilKind_ends hc
      have htokens : tokens = ts ++ c.rest := hts
      exact absurd (List.mem_singleton.mp ht) (hnone t (by simp [htokens, hrest]))
    | error e c =>
      obtain rfl : e = .noEnd := untilKind_error (fun _ _ _ h => declaration_error hl h) _ _ _ hc
      rw [hc] at hreaches
      -- had it stopped earlier, there would be more tokens than there are
      have hrest : c.rest = [] := Classical.not_not.mp fun hne => Nat.lt_irrefl _ (hreaches.2 hne)
      obtain ⟨ts, hts, -, htaken⟩ := hreaches.1.tokens
      have htokens : tokens = ts ++ c.rest := hts
      have hconsumed : c.consumed ++ c.rest = tokens := hreaches.1.consumed
      rw [hrest, List.append_nil] at htokens hconsumed
      refine ⟨c, rfl, ?_, hrest, hconsumed⟩
      rw [htaken, htokens]
      exact Nat.zero_add _
  · exact programBy_eq (fun c hc => synchronizeStepwise_apply hc) limit tokens
  · exact fun kinds h => accept?_eq h
  · exact expect_eq

theorem program_consumes_broken :
    let token (k : Kind) (s : String) : Token := ⟨k, .text s, .nil, 1⟩
    let before := [token .semicolon ";", token .printWord "print", token .rightParen ")", token .semicolon ";"]
    let behind := [token .identifier "x", endToken 2]
    0 < depthLimit ∧ (∀ t ∈ before, t.kind ≠ .eof) ∧ (endToken 1).kind = .eof ∧
      ∃ ns c, program depthLimit (before ++ endToken 1 :: behind) = .ok ns c ∧ c.taken = before.length ∧
        c.rest = endToken 1 :: behind ∧ c.consumed = before := by
  intro token before behind
  have hl : 0 < depthLimit := by decide
  have hbefore : ∀ t ∈ before, t.kind ≠ .eof := by decide
  exact ⟨hl, hbefore, rfl, (program_consumes hl _).1 before (endToken 1) behind rfl hbefore rfl⟩

end Descent

end Lox
