import Lox.Proofs.Grammar

namespace Lox.Grammar

open Ascent

variable {lenient : Bool}

inductive Chain (lenient : Bool) (l : Level) (ls : List Level) : List Token → Phrase → List Token → Phrase → Prop
  | done {rest p} : Chain lenient l ls rest p rest p
  | more {o mid mid' rest a b p} :
      o.kind ∈ l.operators → Derives lenient (.operand ls) mid mid' b →
      Chain lenient l ls mid' (.joined l a o b) rest p → Chain lenient l ls (o :: mid) a rest p

def Follows : Symbol → List Token → Prop
  | .declarations, rest => ∀ k ∈ next? rest, k = .rightBrace ∨ k = .eof
  | .clause, rest | .expression, rest => Ends rest
  | .operand levels, rest => NoOperator levels rest
  | _, _ => True

def Determined (lenient : Bool) (s : Symbol) (ts rest : List Token) (p : Phrase) : Prop :=
  match s with
  | .operand (l :: ls) => l :: ls <:+ Ascent.levels → NoOperator ls rest → ∀ rest' p',
      Derives lenient (.operand (l :: ls)) ts rest' p' → NoOperator (l :: ls) rest' → Chain lenient l ls rest p rest' p'
  | s => Follows s rest → ∀ rest' p', Derives lenient s ts rest' p' → Follows s rest' → rest' = rest ∧ p' = p

section

variable {l : Level} {ls : List Level} {ts mid rest rest' : List Token} {a b p p' : Phrase} {o t : Token}

namespace Chain

theorem snoc (h : Chain lenient l ls ts p (o :: mid) a) (ho : o.kind ∈ l.operators)
    (hb : Derives lenient (.operand ls) mid rest b) : Chain lenient l ls ts p rest (.joined l a o b) := by
  generalize hmid : o :: mid = us at h
  induction h with
  | done =>
    subst hmid
    exact .more ho hb .done
  | more ho' hb' _ ih => exact .more ho' hb' (ih hmid)

theorem of_operand (h : Derives lenient (.operand (l :: ls)) ts rest p) :
    ∃ mid a, Derives lenient (.operand ls) ts mid a ∧ Chain lenient l ls mid a rest p := by
  generalize hs : Symbol.operand (l :: ls) = s at h
  induction h with
  | joined _ ho hb ih _ =>
    cases hs
    obtain ⟨mid, a, ha, hc⟩ := ih rfl
    exact ⟨mid, a, ha, hc.snoc ho hb⟩
  | single h _ =>
    cases hs
    exact ⟨_, _, h, .done⟩
  | _ => cases hs

theorem noOperator (h : Chain lenient l ls mid a rest p) (hls : l :: ls <:+ Ascent.levels) (hn : NoOperator (l :: ls) rest) :
    NoOperator ls mid := by
  cases h with
  | done => exact fun l' hl => hn l' (List.mem_cons_of_mem l hl)
  | more ho =>
    intro l' hl k hk
    simp only [next?, List.head?_cons, Option.map_some, Option.mem_some] at hk
    exact hk ▸ Level.not_mem_tighter hls ho hl

theorem eq_of_noOperator (h : Chain lenient l ls mid a rest p) (hn : NoOperator (l :: ls) mid) :
    rest = mid ∧ p = a := by
  cases h with
  | done => exact ⟨rfl, rfl⟩
  | more ho => exact absurd ho (hn l (by simp) _ (by simp [next?]))

end Chain

namespace Determined

theorem operand (h : Determined lenient (.operand ls) ts rest p) (hls : ls <:+ Ascent.levels) (hn : NoOperator ls rest)
    (hd : Derives lenient (.operand ls) ts rest' p') (hn' : NoOperator ls rest') : rest' = rest ∧ p' = p := by
  cases ls with
  | nil => exact h hn _ _ hd hn'
  | cons l ls => exact (h hls (fun l' hl => hn l' (by simp [hl])) _ _ hd hn').eq_of_noOperator hn

theorem closed {t t' : Token} (h : Determined lenient .expression ts (t :: rest) p) (ht : Ends (t :: rest))
    (hd : Derives lenient .expression ts (t' :: rest') p') (ht' : Ends (t' :: rest')) :
    t' = t ∧ rest' = rest ∧ p' = p := by
  obtain ⟨heq, hp⟩ := h ht _ _ hd ht'
  obtain ⟨ht, hrest⟩ := List.cons.inj heq
  exact ⟨ht, hrest, hp⟩

theorem joined (ha : Determined lenient (.operand (l :: ls)) ts (o :: mid) a) (ho : o.kind ∈ l.operators)
    (hb : Determined lenient (.operand ls) mid rest b) :
    Determined lenient (.operand (l :: ls)) ts rest (.joined l a o b) := by
  intro hls hn rest' p' hd hn'
  have hno : NoOperator ls (o :: mid) := by
    intro l' hl k hk
    simp only [next?, List.head?_cons, Option.map_some, Option.mem_some] at hk
    exact hk ▸ Level.not_mem_tighter hls ho hl
  have hls' : ls <:+ Ascent.levels := (List.suffix_cons l ls).trans hls
  cases ha hls hno _ _ hd hn' with
  | done => exact absurd ho (hn' l (by simp) _ (by simp [next?]))
  | more _ hb' hc =>
    obtain ⟨rfl, rfl⟩ := hb.operand hls' hn hb' (hc.noOperator hls hn')
    exact hc

theorem single (h : Determined lenient (.operand ls) ts rest p) :
    Determined lenient (.operand (l :: ls)) ts rest p := by
  intro hls hn rest' p' hd hn'
  obtain ⟨mid, a, ha, hc⟩ := Chain.of_operand hd
  obtain ⟨rfl, rfl⟩ := h.operand ((List.suffix_cons l ls).trans hls) hn ha (hc.noOperator hls hn')
  exact hc

end Determined

theorem operand_of_name {s : Symbol} {n e : Token} (h : Derives lenient s (n :: e :: ts) rest p)
    (hs : s = .operand ls ∨ s = .unary ∨ s = .primary) (hls : ls <:+ Ascent.levels) (hn : n.kind = .identifier)
    (he : e.kind = .equal) : rest = e :: ts ∧ p = .variable n := by
  generalize hus : n :: e :: ts = us at h
  induction h generalizing ls with
  | joined ha ho hb ih _ =>
    simp only [Symbol.operand.injEq, reduceCtorEq, or_self, or_false] at hs
    subst hs
    obtain ⟨heq, -⟩ := ih (.inl rfl) hls hus
    cases heq
    have hno : NoOperator Ascent.levels (e :: ts) := noOperator_of_equal he
    exact absurd ho (hno _ (hls.subset (by simp)) _ (by simp [next?]))
  | single _ ih =>
    simp only [Symbol.operand.injEq, reduceCtorEq, or_self, or_false] at hs
    subst hs
    exact ih (.inl rfl) ((List.suffix_cons _ _).trans hls) hus
  | tightest _ ih => exact ih (.inr (.inl rfl)) hls hus
  | primary _ ih => exact ih (.inr (.inr rfl)) hls hus
  | unary ho _ _ | literal ho =>
    cases hus
    simp [hn] at ho
  | trueWord ho | falseWord ho | nilWord ho | grouping ho =>
    cases hus
    simp [hn] at ho
  | name _ =>
    cases hus
    exact ⟨rfl, rfl⟩
  | _ => simp at hs

theorem not_ends_of_expression (h : Derives lenient .expression ts rest p) : ¬ Ends ts := by
  obtain ⟨t, us, rfl, ht⟩ := h.exists_opening (.inl rfl)
  rintro (he | he) <;> simp only [next?, List.head?_cons, Option.map_some, Option.some.injEq] at he <;>
    simp [he, opening] at ht

theorem varDeclaration_ne_statement (hv : Derives lenient .varDeclaration ts rest p)
    (hs : Derives lenient .statement ts rest' p') : False := by
  obtain ⟨t, us, rfl, ht⟩ := hv.exists_varWord
  obtain ⟨u, vs, heq, hu⟩ := hs.statement_begins
  cases heq
  simp [ht] at hu

theorem varDeclaration_ne_expressionStatement (hv : Derives lenient .varDeclaration ts rest p)
    (hs : Derives lenient .expressionStatement ts rest' p') : False :=
  varDeclaration_ne_statement hv (.expressed hs)

theorem not_mem_opening (h : Derives lenient .expressionStatement (t :: ts) rest p) {k : Kind} (ht : t.kind = k)
    (hk : k ∉ opening) : False := by
  obtain ⟨u, us, heq, hu⟩ := h.opening_of_expressionStatement
  cases heq
  exact hk (ht ▸ hu)

theorem determined_ifOnly {k l r : Token} (hk : k.kind = .ifWord)
    (hc : Determined lenient .expression ts (r :: mid) a) (hr : r.kind = .rightParen)
    (hs : Determined lenient .statement mid rest b) (hnext : next? rest ≠ some .elseWord) :
    Determined lenient .statement (k :: l :: ts) rest (.branch a b .absent) := by
  intro _ rest' p' hd _
  cases hd with
  | ifOnly _ _ hc' hr' hs' =>
    obtain ⟨rfl, rfl, rfl⟩ := hc.closed (ends_of_rightParen hr) hc' (ends_of_rightParen hr')
    obtain ⟨rfl, rfl⟩ := hs trivial _ _ hs' trivial
    exact ⟨rfl, rfl⟩
  | ifElse _ _ hc' hr' hs' he =>
    obtain ⟨rfl, rfl, rfl⟩ := hc.closed (ends_of_rightParen hr) hc' (ends_of_rightParen hr')
    obtain ⟨rfl, rfl⟩ := hs trivial _ _ hs' trivial
    exact absurd (by simp [next?, he]) hnext
  | expressed h => exact (not_mem_opening h hk (by decide)).elim
  | print hk' | block hk' | loop hk' | forLoop hk' => simp [hk] at hk'

theorem determined_ifElse {k l r e : Token} {mid' : List Token} {q : Phrase} (hk : k.kind = .ifWord)
    (hc : Determined lenient .expression ts (r :: mid) a) (hr : r.kind = .rightParen)
    (hs : Determined lenient .statement mid (e :: mid') b) (he : e.kind = .elseWord)
    (hq : Determined lenient .statement mid' rest q) :
    Determined lenient .statement (k :: l :: ts) rest (.branch a b q) := by
  intro _ rest' p' hd _
  cases hd with
  | ifOnly _ _ hc' hr' hs' hnext =>
    obtain ⟨rfl, rfl, rfl⟩ := hc.closed (ends_of_rightParen hr) hc' (ends_of_rightParen hr')
    obtain ⟨rfl, rfl⟩ := hs trivial _ _ hs' trivial
    exact absurd (by simp [next?, he]) hnext
  | ifElse _ _ hc' hr' hs' _ hq' =>
    obtain ⟨rfl, rfl, rfl⟩ := hc.closed (ends_of_rightParen hr) hc' (ends_of_rightParen hr')
    obtain ⟨heq, rfl⟩ := hs trivial _ _ hs' trivial
    cases heq
    obtain ⟨rfl, rfl⟩ := hq trivial _ _ hq' trivial
    exact ⟨rfl, rfl⟩
  | expressed h => exact (not_mem_opening h hk (by decide)).elim
  | print hk' | block hk' | loop hk' | forLoop hk' => simp [hk] at hk'

theorem determined_loop {k l r : Token} (hk : k.kind = .whileWord)
    (hc : Determined lenient .expression ts (r :: mid) a) (hr : r.kind = .rightParen)
    (hs : Determined lenient .statement mid rest b) :
    Determined lenient .statement (k :: l :: ts) rest (.loop a b) := by
  intro _ rest' p' hd _
  cases hd with
  | loop _ _ hc' hr' hs' =>
    obtain ⟨rfl, rfl, rfl⟩ := hc.closed (ends_of_rightParen hr) hc' (ends_of_rightParen hr')
    obtain ⟨rfl, rfl⟩ := hs trivial _ _ hs' trivial
    exact ⟨rfl, rfl⟩
  | expressed h => exact (not_mem_opening h hk (by decide)).elim
  | print hk' | block hk' | ifOnly hk' | ifElse hk' | forLoop hk' => simp [hk] at hk'

theorem determined_forLoop {k l s r : Token} {ts' mid' : List Token} {i c e : Phrase} (hk : k.kind = .forWord)
    (hi : Determined lenient .forInitializer ts ts' i) (hc : Determined lenient .clause ts' (s :: mid) c)
    (hs : s.kind = .semicolon) (he : Determined lenient .clause mid (r :: mid') e) (hr : r.kind = .rightParen)
    (hb : Determined lenient .statement mid' rest b) :
    Determined lenient .statement (k :: l :: ts) rest (.forLoop i c e b) := by
  intro _ rest' p' hd _
  cases hd with
  | forLoop _ _ hi' hc' hs' he' hr' hb' =>
    obtain ⟨rfl, rfl⟩ := hi trivial _ _ hi' trivial
    obtain ⟨heq, rfl⟩ := hc (ends_of_semicolon hs) _ _ hc' (ends_of_semicolon hs')
    cases heq
    obtain ⟨heq, rfl⟩ := he (ends_of_rightParen hr) _ _ he' (ends_of_rightParen hr')
    cases heq
    obtain ⟨rfl, rfl⟩ := hb trivial _ _ hb' trivial
    exact ⟨rfl, rfl⟩
  | expressed h => exact (not_mem_opening h hk (by decide)).elim
  | print hk' | block hk' | ifOnly hk' | ifElse hk' | loop hk' => simp [hk] at hk'

theorem determined_assign {n e : Token} (hn : n.kind = .identifier) (he : e.kind = .equal)
    (hv : Determined lenient .expression mid rest p) :
    Determined lenient .expression (n :: e :: mid) rest (.assign (.variable n) e p) := by
  intro hf rest' p' hd hf'
  cases hd with
  | assign _ _ hv' =>
    obtain ⟨rfl, rfl⟩ := hv hf _ _ hv' hf'
    exact ⟨rfl, rfl⟩
  | misassign _ ht hne _ _ =>
    obtain ⟨-, rfl⟩ := operand_of_name ht (.inl rfl) List.suffix_rfl hn he
    exact absurd rfl (hne n)
  | joinedAll h =>
    obtain ⟨rfl, -⟩ := operand_of_name h (.inl rfl) List.suffix_rfl hn he
    exact absurd (List.mem_singleton.mpr he) (hf'.not_mem_equal rfl)

theorem determined_misassign {e : Token} (ht : Determined lenient (.operand Ascent.levels) ts (e :: mid) a)
    (hne : ∀ n, a ≠ .variable n) (he : e.kind = .equal) (hv : Determined lenient .expression mid rest p) :
    Determined lenient .expression ts rest (.assign a e p) := by
  intro hf rest' p' hd hf'
  have hno : NoOperator Ascent.levels (e :: mid) := noOperator_of_equal he
  cases hd with
  | assign hn he' _ =>
    obtain ⟨-, rfl⟩ := ht.operand List.suffix_rfl hno (.operand_name hn) (noOperator_of_equal he')
    exact absurd rfl (hne _)
  | misassign _ ht' _ he' hv' =>
    obtain ⟨heq, rfl⟩ := ht.operand List.suffix_rfl hno ht' (noOperator_of_equal he')
    cases heq
    obtain ⟨rfl, rfl⟩ := hv hf _ _ hv' hf'
    exact ⟨rfl, rfl⟩
  | joinedAll h =>
    obtain ⟨rfl, -⟩ := ht.operand List.suffix_rfl hno h hf'.noOperator
    exact absurd (List.mem_singleton.mpr he) (hf'.not_mem_equal rfl)

theorem determined_joinedAll (h : Determined lenient (.operand Ascent.levels) ts rest p) :
    Determined lenient .expression ts rest p := by
  intro hf rest' p' hd hf'
  cases hd with
  | assign hn he _ =>
    obtain ⟨rfl, -⟩ := h.operand List.suffix_rfl hf.noOperator (.operand_name hn) (noOperator_of_equal he)
    exact absurd (List.mem_singleton.mpr he) (hf.not_mem_equal rfl)
  | misassign _ ht _ he _ =>
    obtain ⟨rfl, -⟩ := h.operand List.suffix_rfl hf.noOperator ht (noOperator_of_equal he)
    exact absurd (List.mem_singleton.mpr he) (hf.not_mem_equal rfl)
  | joinedAll h' => exact h.operand List.suffix_rfl hf.noOperator h' hf'.noOperator

end

theorem determined {s : Symbol} {ts rest : List Token} {p : Phrase} (h : Derives lenient s ts rest p) :
    Determined lenient s ts rest p := by
  -- one derivation against any other: what may follow the phrases keeps both from going on
  induction h with
  | noDeclaration =>
    intro hf rest' p' hd hf'
    cases hd with
    | noDeclaration => exact ⟨rfl, rfl⟩
    | moreDeclarations h _ =>
      obtain ⟨t, us, rfl, ht⟩ := h.declaration_begins
      rcases hf t.kind (by simp [next?]) with he | he <;> simp [he] at ht
  | moreDeclarations h _ ih ih' =>
    intro hf rest' p' hd hf'
    cases hd with
    | noDeclaration =>
      obtain ⟨t, us, rfl, ht⟩ := h.declaration_begins
      rcases hf' t.kind (by simp [next?]) with he | he <;> simp [he] at ht
    | moreDeclarations h' hs' =>
      obtain ⟨rfl, rfl⟩ := ih trivial _ _ h' trivial
      obtain ⟨rfl, heq⟩ := ih' hf _ _ hs' hf'
      cases heq
      exact ⟨rfl, rfl⟩
  | varDeclared h ih =>
    intro _ rest' p' hd _
    cases hd with
    | varDeclared h' => exact ih trivial _ _ h' trivial
    | stated h' => exact (varDeclaration_ne_statement h h').elim
  | stated h ih =>
    intro _ rest' p' hd _
    cases hd with
    | varDeclared h' => exact (varDeclaration_ne_statement h' h).elim
    | stated h' => exact ih trivial _ _ h' trivial
  | varAbsent _ _ hs =>
    intro _ rest' p' hd _
    cases hd with
    | varAbsent => exact ⟨rfl, rfl⟩
    | varInitialized _ _ he => simp [hs] at he
  | varInitialized _ _ he _ hs ih =>
    intro _ rest' p' hd _
    cases hd with
    | varAbsent _ _ hs' => simp [he] at hs'
    | varInitialized _ _ _ h' hs' =>
      obtain ⟨rfl, rfl, rfl⟩ := ih.closed (ends_of_semicolon hs) h' (ends_of_semicolon hs')
      exact ⟨rfl, rfl⟩
  | expressionStatement _ hs ih =>
    intro _ rest' p' hd _
    cases hd with
    | expressionStatement h' hs' =>
      obtain ⟨rfl, rfl, rfl⟩ := ih.closed (ends_of_semicolon hs) h' (ends_of_semicolon hs')
      exact ⟨rfl, rfl⟩
  | expressed h ih =>
    intro _ rest' p' hd _
    cases hd with
    | expressed h' => exact ih trivial _ _ h' trivial
    | print hk | block hk | ifOnly hk | ifElse hk | loop hk | forLoop hk => exact (not_mem_opening h hk (by decide)).elim
  | print hk _ hs ih =>
    intro _ rest' p' hd _
    cases hd with
    | print _ h' hs' =>
      obtain ⟨rfl, rfl, rfl⟩ := ih.closed (ends_of_semicolon hs) h' (ends_of_semicolon hs')
      exact ⟨rfl, rfl⟩
    | expressed h => exact (not_mem_opening h hk (by decide)).elim
    | block hk' | ifOnly hk' | ifElse hk' | loop hk' | forLoop hk' => simp [hk] at hk'
  | block hk _ hr ih =>
    intro _ rest' p' hd _
    cases hd with
    | block _ h' hr' =>
      obtain ⟨heq, rfl⟩ := ih (by simp [Follows, next?, hr]) _ _ h' (by simp [Follows, next?, hr'])
      cases heq
      exact ⟨rfl, rfl⟩
    | expressed h => exact (not_mem_opening h hk (by decide)).elim
    | print hk' | ifOnly hk' | ifElse hk' | loop hk' | forLoop hk' => simp [hk] at hk'
  | ifOnly hk _ _ hr _ hnext ih ih' => exact determined_ifOnly hk ih hr ih' hnext
  | ifElse hk _ _ hr _ he _ ih ih' ih'' => exact determined_ifElse hk ih hr ih' he ih''
  | loop hk _ _ hr _ ih ih' => exact determined_loop hk ih hr ih'
  | forLoop hk _ _ _ hs _ hr _ ihi ihc ihe ihb => exact determined_forLoop hk ihi ihc hs ihe hr ihb
  | initializerAbsent hs =>
    intro _ rest' p' hd _
    cases hd with
    | initializerAbsent => exact ⟨rfl, rfl⟩
    | initializerVar h =>
      obtain ⟨t, us, heq, ht⟩ := h.exists_varWord
      cases heq
      simp [hs] at ht
    | initializerExpression h => exact (not_mem_opening h hs (by decide)).elim
  | initializerVar h ih =>
    intro _ rest' p' hd _
    cases hd with
    | initializerAbsent hs =>
      obtain ⟨t, us, heq, ht⟩ := h.exists_varWord
      cases heq
      simp [hs] at ht
    | initializerVar h' => exact ih trivial _ _ h' trivial
    | initializerExpression h' => exact (varDeclaration_ne_expressionStatement h h').elim
  | initializerExpression h ih =>
    intro _ rest' p' hd _
    cases hd with
    | initializerAbsent hs => exact (not_mem_opening h hs (by decide)).elim
    | initializerVar h' => exact (varDeclaration_ne_expressionStatement h' h).elim
    | initializerExpression h' => exact ih trivial _ _ h' trivial
  | clauseAbsent =>
    intro hf rest' p' hd _
    cases hd with
    | clauseAbsent => exact ⟨rfl, rfl⟩
    | clausePresent h => exact absurd hf (not_ends_of_expression h)
  | clausePresent h ih =>
    intro hf rest' p' hd hf'
    cases hd with
    | clauseAbsent => exact absurd hf' (not_ends_of_expression h)
    | clausePresent h' => exact ih hf _ _ h' hf'
  | assign hn he _ ih => exact determined_assign hn he ih
  | misassign _ _ hne he _ iht ihv => exact determined_misassign iht hne he ihv
  | joinedAll _ ih => exact determined_joinedAll ih
  | joined _ ho _ iha ihb => exact iha.joined ho ihb
  | single _ ih => exact ih.single
  | tightest _ ih =>
    intro _ rest' p' hd _
    cases hd with
    | tightest h' => exact ih trivial _ _ h' trivial
  | unary ho _ ih =>
    intro _ rest' p' hd _
    cases hd with
    | unary _ h' =>
      obtain ⟨rfl, rfl⟩ := ih trivial _ _ h' trivial
      exact ⟨rfl, rfl⟩
    | primary h' =>
      obtain ⟨t, us, heq, ht⟩ := h'.primary_begins
      cases heq
      exact absurd ho ht
  | primary h ih =>
    intro _ rest' p' hd _
    cases hd with
    | unary ho _ =>
      obtain ⟨t, us, heq, ht⟩ := h.primary_begins
      cases heq
      exact absurd ho ht
    | primary h' => exact ih trivial _ _ h' trivial
  | grouping hl _ hr ih =>
    intro _ rest' p' hd _
    cases hd with
    | grouping _ h' hr' =>
      obtain ⟨rfl, rfl, rfl⟩ := ih.closed (ends_of_rightParen hr) h' (ends_of_rightParen hr')
      exact ⟨rfl, rfl⟩
    | literal ht => simp [hl] at ht
    | trueWord ht | falseWord ht | nilWord ht | name ht => simp [hl] at ht
  | literal ht | trueWord ht | falseWord ht | nilWord ht | name ht =>
    intro _ rest' p' hd _
    cases hd <;> simp_all

theorem Derives.program_unique {ts rest : List Token} {p p' : Phrase} {e : Token} (he : e.kind = .eof)
    (h : Derives lenient .declarations ts (e :: rest) p) (h' : Derives lenient .declarations ts (e :: rest) p') :
    p' = p :=
  (determined h (by simp [Follows, next?, he]) _ _ h' (by simp [Follows, next?, he])).2

end Lox.Grammar
