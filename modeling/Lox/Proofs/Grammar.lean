import Lox.Ascent.Phrase
import Lox.Descent

/-!
The grammar of programs: which tokens make a phrase of each sort, and which phrase they make. Tokens are read
off the front of a list, so a derivation relates the tokens before a phrase to the tokens behind it.
-/
namespace Lox

open Ascent

theorem Descent.levels_eq : Descent.levels = Ascent.levels :=
  rfl

theorem Descent.join_eq_fold : Descent.join = Phrase.fold := by
  funext level left operator right
  rw [join, Phrase.fold]
  cases level.logical <;> rfl

namespace Level

theorem not_mem_tighter {l l' : Level} {ls : List Level} {k : Kind} (h : (l :: ls) <:+ Ascent.levels) (hk : k ∈ l.operators)
    (hl : l' ∈ ls) : k ∉ l'.operators := by
  have hall : Ascent.levels.Pairwise fun a b => ∀ k ∈ a.operators, k ∉ b.operators := by decide
  exact (List.pairwise_cons.mp (hall.sublist h.sublist)).1 l' hl k hk

end Level

namespace Grammar

inductive Symbol where
  | declarations
  | declaration
  | varDeclaration
  | statement
  | expressionStatement
  | forInitializer
  | clause
  | expression
  | operand (levels : List Level)
  | unary
  | primary

def next? (ts : List Token) : Option Kind :=
  ts.head?.map Token.kind

/-- The tokens of a list up to `rest` make a phrase. A lenient grammar also allows assignments to what is
not a name. The tree of a sequence of declarations is a block. -/
inductive Derives (lenient : Bool) : Symbol → List Token → List Token → Phrase → Prop
  | noDeclaration {rest} : Derives lenient .declarations rest rest (.block [])
  | moreDeclarations {ts mid rest p ps} :
      Derives lenient .declaration ts mid p → Derives lenient .declarations mid rest (.block ps) →
      Derives lenient .declarations ts rest (.block (p :: ps))
  | varDeclared {ts rest p} : Derives lenient .varDeclaration ts rest p → Derives lenient .declaration ts rest p
  | stated {ts rest p} : Derives lenient .statement ts rest p → Derives lenient .declaration ts rest p
  | varAbsent {v n s rest} :
      v.kind = .varWord → n.kind = .identifier → s.kind = .semicolon →
      Derives lenient .varDeclaration (v :: n :: s :: rest) rest (.var n .absent)
  | varInitialized {v n e s ts rest p} :
      v.kind = .varWord → n.kind = .identifier → e.kind = .equal →
      Derives lenient .expression ts (s :: rest) p → s.kind = .semicolon →
      Derives lenient .varDeclaration (v :: n :: e :: ts) rest (.var n p)
  | expressionStatement {s ts rest p} :
      Derives lenient .expression ts (s :: rest) p → s.kind = .semicolon →
      Derives lenient .expressionStatement ts rest (.expression p)
  | expressed {ts rest p} :
      Derives lenient .expressionStatement ts rest p → Derives lenient .statement ts rest p
  | print {k s ts rest p} :
      k.kind = .printWord → Derives lenient .expression ts (s :: rest) p → s.kind = .semicolon →
      Derives lenient .statement (k :: ts) rest (.print p)
  | block {l r ts rest p} :
      l.kind = .leftBrace → Derives lenient .declarations ts (r :: rest) p → r.kind = .rightBrace →
      Derives lenient .statement (l :: ts) rest p
  /-- An `else` belongs to the nearest `if`: none follows an `if` that has none. -/
  | ifOnly {k l r ts mid rest c a} :
      k.kind = .ifWord → l.kind = .leftParen → Derives lenient .expression ts (r :: mid) c →
      r.kind = .rightParen → Derives lenient .statement mid rest a → next? rest ≠ some .elseWord →
      Derives lenient .statement (k :: l :: ts) rest (.branch c a .absent)
  | ifElse {k l r e ts mid mid' rest c a b} :
      k.kind = .ifWord → l.kind = .leftParen → Derives lenient .expression ts (r :: mid) c →
      r.kind = .rightParen → Derives lenient .statement mid (e :: mid') a → e.kind = .elseWord →
      Derives lenient .statement mid' rest b →
      Derives lenient .statement (k :: l :: ts) rest (.branch c a b)
  | loop {k l r ts mid rest c b} :
      k.kind = .whileWord → l.kind = .leftParen → Derives lenient .expression ts (r :: mid) c →
      r.kind = .rightParen → Derives lenient .statement mid rest b →
      Derives lenient .statement (k :: l :: ts) rest (.loop c b)
  | forLoop {k l s r ts ts' mid mid' rest i c e b} :
      k.kind = .forWord → l.kind = .leftParen → Derives lenient .forInitializer ts ts' i →
      Derives lenient .clause ts' (s :: mid) c → s.kind = .semicolon →
      Derives lenient .clause mid (r :: mid') e → r.kind = .rightParen →
      Derives lenient .statement mid' rest b →
      Derives lenient .statement (k :: l :: ts) rest (.forLoop i c e b)
  | initializerAbsent {s rest} :
      s.kind = .semicolon → Derives lenient .forInitializer (s :: rest) rest .absent
  | initializerVar {ts rest p} :
      Derives lenient .varDeclaration ts rest p → Derives lenient .forInitializer ts rest p
  | initializerExpression {ts rest p} :
      Derives lenient .expressionStatement ts rest p → Derives lenient .forInitializer ts rest p
  | clauseAbsent {rest} : Derives lenient .clause rest rest .absent
  | clausePresent {ts rest p} : Derives lenient .expression ts rest p → Derives lenient .clause ts rest p
  | assign {n e ts rest v} :
      n.kind = .identifier → e.kind = .equal → Derives lenient .expression ts rest v →
      Derives lenient .expression (n :: e :: ts) rest (.assign (.variable n) e v)
  | misassign {e ts mid rest t v} :
      lenient = true → Derives lenient (.operand Ascent.levels) ts (e :: mid) t → (∀ n, t ≠ .variable n) →
      e.kind = .equal → Derives lenient .expression mid rest v →
      Derives lenient .expression ts rest (.assign t e v)
  | joinedAll {ts rest p} :
      Derives lenient (.operand Ascent.levels) ts rest p → Derives lenient .expression ts rest p
  | joined {l ls o ts mid rest a b} :
      Derives lenient (.operand (l :: ls)) ts (o :: mid) a → o.kind ∈ l.operators →
      Derives lenient (.operand ls) mid rest b →
      Derives lenient (.operand (l :: ls)) ts rest (.joined l a o b)
  | single {l ls ts rest p} :
      Derives lenient (.operand ls) ts rest p → Derives lenient (.operand (l :: ls)) ts rest p
  | tightest {ts rest p} : Derives lenient .unary ts rest p → Derives lenient (.operand []) ts rest p
  | unary {o ts rest p} :
      o.kind ∈ [.bang, .minus] → Derives lenient .unary ts rest p →
      Derives lenient .unary (o :: ts) rest (.unary o p)
  | primary {ts rest p} : Derives lenient .primary ts rest p → Derives lenient .unary ts rest p
  | literal {t rest} :
      t.kind ∈ [.number, .string] → Derives lenient .primary (t :: rest) rest (.literal t.literal)
  | trueWord {t rest} : t.kind = .trueWord → Derives lenient .primary (t :: rest) rest (.literal (.bool true))
  | falseWord {t rest} : t.kind = .falseWord → Derives lenient .primary (t :: rest) rest (.literal (.bool false))
  | nilWord {t rest} : t.kind = .nilWord → Derives lenient .primary (t :: rest) rest (.literal .nil)
  | name {t rest} : t.kind = .identifier → Derives lenient .primary (t :: rest) rest (.variable t)
  | grouping {l r ts rest p} :
      l.kind = .leftParen → Derives lenient .expression ts (r :: rest) p → r.kind = .rightParen →
      Derives lenient .primary (l :: ts) rest (.grouping p)

def opening : List Kind :=
  [.number, .string, .trueWord, .falseWord, .nilWord, .identifier, .leftParen, .bang, .minus]

def NoOperator (levels : List Level) (rest : List Token) : Prop :=
  ∀ l ∈ levels, ∀ k ∈ next? rest, k ∉ l.operators

def Ends (rest : List Token) : Prop :=
  next? rest = some .semicolon ∨ next? rest = some .rightParen

section

variable {t : Token} {ts rest : List Token}

theorem next?_eq_some {k : Kind} (h : next? rest = some k) : ∃ t ts, rest = t :: ts ∧ t.kind = k := by
  cases rest with
  | nil => cases h
  | cons t ts => exact ⟨t, ts, rfl, by simpa [next?] using h⟩

theorem Ends.ne_nil (h : Ends rest) : rest ≠ [] := by
  rcases h with h | h <;> obtain ⟨t, ts, rfl, -⟩ := next?_eq_some h <;> simp

theorem Ends.noOperator (h : Ends rest) : NoOperator Ascent.levels rest := by
  have hall : ∀ l ∈ Ascent.levels, .semicolon ∉ l.operators ∧ .rightParen ∉ l.operators := by decide
  intro l hl k hk
  rcases h with h | h <;> rw [h, Option.mem_some] at hk <;> subst hk
  · exact (hall l hl).1
  · exact (hall l hl).2

theorem closing_ne_eof {t : Token} {ts : List Token} {closing : Kind} (h : Ends (t :: ts)) (ht : t.kind = closing) :
    closing ≠ .eof := by
  rcases h with h | h <;> simp only [next?, List.head?_cons, Option.map_some, Option.some.injEq] at h <;> simp [← ht, h]

theorem noOperator_of_equal {e : Token} (he : e.kind = .equal) : NoOperator Ascent.levels (e :: rest) := by
  have hall : ∀ l ∈ Ascent.levels, .equal ∉ l.operators := by decide
  intro l hl k hk
  simp only [next?, List.head?_cons, Option.map_some, Option.mem_some, he] at hk
  exact hk ▸ hall l hl

theorem Ends.not_mem_equal (h : Ends rest) {t : Token} {ts : List Token} (hc : rest = t :: ts) :
    t.kind ∉ [Kind.equal] := by
  subst hc
  rcases h with h | h <;> simp only [next?, List.head?_cons, Option.map_some, Option.some.injEq] at h <;> simp [h]

theorem ends_of_semicolon (h : t.kind = .semicolon) : Ends (t :: ts) :=
  .inl (by simp [next?, h])

theorem ends_of_rightParen (h : t.kind = .rightParen) : Ends (t :: ts) :=
  .inr (by simp [next?, h])

end

namespace Derives

variable {lenient : Bool} {s : Symbol} {levels : List Level} {ts rest : List Token} {p : Phrase}

theorem isAbsent_eq_false (h : Derives lenient s ts rest p) (hi : s ≠ .forInitializer) (hc : s ≠ .clause) :
    p.isAbsent = Bool.false := by
  induction h with
  | initializerAbsent | initializerVar | initializerExpression => exact absurd rfl hi
  | clauseAbsent | clausePresent => exact absurd rfl hc
  | varDeclared _ ih | stated _ ih | expressed _ ih | joinedAll _ ih | single _ ih | tightest _ ih
  | primary _ ih => exact ih (by simp) (by simp)
  | block _ _ _ ih => exact ih (by simp) (by simp)
  | _ => rfl

theorem suffix (h : Derives lenient s ts rest p) : rest <:+ ts := by
  have cons (t : Token) {us vs : List Token} (h : vs <:+ us) : vs <:+ t :: us := h.trans (List.suffix_cons t us)
  induction h with
  | noDeclaration | clauseAbsent => exact List.suffix_rfl
  | moreDeclarations _ _ ih ih' => exact ih'.trans ih
  | varDeclared _ ih | stated _ ih | expressed _ ih | initializerVar _ ih | initializerExpression _ ih
  | clausePresent _ ih | joinedAll _ ih | single _ ih | tightest _ ih | primary _ ih => exact ih
  | varAbsent => exact cons _ (cons _ (List.suffix_cons _ _))
  | varInitialized _ _ _ _ _ ih => exact cons _ (cons _ (cons _ ((List.suffix_cons _ _).trans ih)))
  | expressionStatement _ _ ih => exact (List.suffix_cons _ _).trans ih
  | print _ _ _ ih | block _ _ _ ih | grouping _ _ _ ih => exact cons _ ((List.suffix_cons _ _).trans ih)
  | ifOnly _ _ _ _ _ _ ih ih' => exact cons _ (cons _ (ih'.trans ((List.suffix_cons _ _).trans ih)))
  | ifElse _ _ _ _ _ _ _ ih ih' ih'' =>
    exact cons _ (cons _ (ih''.trans ((List.suffix_cons _ _).trans (ih'.trans ((List.suffix_cons _ _).trans ih)))))
  | loop _ _ _ _ _ ih ih' => exact cons _ (cons _ (ih'.trans ((List.suffix_cons _ _).trans ih)))
  | forLoop _ _ _ _ _ _ _ _ ih₁ ih₂ ih₃ ih₄ =>
    exact cons _ (cons _ (ih₄.trans ((List.suffix_cons _ _).trans
      (ih₃.trans ((List.suffix_cons _ _).trans (ih₂.trans ih₁))))))
  | initializerAbsent | literal | trueWord | falseWord | nilWord | name => exact List.suffix_cons _ _
  | assign _ _ _ ih => exact cons _ (cons _ ih)
  | misassign _ _ _ _ _ ih ih' | joined _ _ _ ih ih' => exact ih'.trans ((List.suffix_cons _ _).trans ih)
  | unary _ _ ih => exact cons _ ih

theorem length_lt (h : Derives lenient s ts rest p) (hd : s ≠ .declarations) (hc : s ≠ .clause) :
    rest.length < ts.length := by
  induction h with
  | noDeclaration | moreDeclarations => exact absurd rfl hd
  | clauseAbsent | clausePresent => exact absurd rfl hc
  | varDeclared _ ih | stated _ ih | expressed _ ih | initializerVar _ ih | initializerExpression _ ih
  | joinedAll _ ih | single _ ih | tightest _ ih | primary _ ih => exact ih (by simp) (by simp)
  | varAbsent =>
    simp only [List.length_cons]
    omega
  | initializerAbsent | literal | trueWord | falseWord | nilWord | name => simp
  | varInitialized _ _ _ _ _ ih | print _ _ _ ih | grouping _ _ _ ih | expressionStatement _ _ ih | assign _ _ _ ih
  | unary _ _ ih =>
    have := ih (by simp) (by simp)
    simp only [List.length_cons] at this ⊢
    omega
  | block _ h =>
    have := h.suffix.length_le
    simp only [List.length_cons] at this ⊢
    omega
  | ifOnly _ _ _ _ _ _ ih ih' | loop _ _ _ _ _ ih ih' | joined _ _ _ ih ih' | misassign _ _ _ _ _ ih ih' =>
    have := ih (by simp) (by simp)
    have := ih' (by simp) (by simp)
    simp only [List.length_cons] at *
    omega
  | ifElse _ _ _ _ _ _ _ ih ih' ih'' =>
    have := ih (by simp) (by simp)
    have := ih' (by simp) (by simp)
    have := ih'' (by simp) (by simp)
    simp only [List.length_cons] at *
    omega
  | forLoop _ _ _ h _ h' _ _ ih _ _ ih' =>
    have := ih (by simp) (by simp)
    have := h.suffix.length_le
    have := h'.suffix.length_le
    have := ih' (by simp) (by simp)
    simp only [List.length_cons] at *
    omega

theorem operand_name {n : Token} (hn : n.kind = .identifier) :
    Derives lenient (.operand levels) (n :: rest) rest (.variable n) := by
  induction levels with
  | nil => exact .tightest (.primary (.name hn))
  | cons l ls ih => exact .single ih

theorem eq_block (h : Derives lenient .declarations ts rest p) : ∃ ps, p = .block ps := by
  cases h with
  | noDeclaration => exact ⟨[], rfl⟩
  | moreDeclarations => exact ⟨_, rfl⟩

theorem exists_opening (h : Derives lenient s ts rest p)
    (hs : s = .expression ∨ (∃ levels, s = .operand levels) ∨ s = .unary ∨ s = .primary) :
    ∃ t us, ts = t :: us ∧ t.kind ∈ opening := by
  induction h with
  | assign hn => exact ⟨_, _, rfl, by simp [opening, hn]⟩
  | misassign _ _ _ _ _ ih | joinedAll _ ih | joined _ _ _ ih | single _ ih | tightest _ ih | primary _ ih =>
    exact ih (by simp)
  | unary ho | literal ho =>
    refine ⟨_, _, rfl, ?_⟩
    rcases List.mem_cons.mp ho with h | h
    · simp [opening, h]
    · simp [opening, List.mem_singleton.mp h]
  | trueWord h | falseWord h | nilWord h | name h => exact ⟨_, _, rfl, by simp [opening, h]⟩
  | grouping hl => exact ⟨_, _, rfl, by simp [opening, hl]⟩
  | _ => simp at hs

theorem opening_of_expressionStatement (h : Derives lenient .expressionStatement ts rest p) :
    ∃ t us, ts = t :: us ∧ t.kind ∈ opening := by
  cases h with
  | expressionStatement h => exact h.exists_opening (.inl rfl)

theorem exists_varWord (h : Derives lenient .varDeclaration ts rest p) :
    ∃ t us, ts = t :: us ∧ t.kind = .varWord := by
  cases h with
  | varAbsent hv => exact ⟨_, _, rfl, hv⟩
  | varInitialized hv => exact ⟨_, _, rfl, hv⟩

theorem statement_begins (h : Derives lenient .statement ts rest p) :
    ∃ t us, ts = t :: us ∧ t.kind ∉ [.varWord, .elseWord, .rightBrace, .eof] := by
  cases h with
  | expressed h =>
    obtain ⟨t, us, rfl, ht⟩ := h.opening_of_expressionStatement
    refine ⟨t, us, rfl, fun hm => ?_⟩
    have hall : ∀ k ∈ [Kind.varWord, .elseWord, .rightBrace, .eof], k ∉ opening := by decide
    exact hall _ hm ht
  | print h | block h | ifOnly h | ifElse h | loop h | forLoop h => exact ⟨_, _, rfl, by simp [h]⟩

theorem declaration_begins (h : Derives lenient .declaration ts rest p) :
    ∃ t us, ts = t :: us ∧ t.kind ∉ [.elseWord, .rightBrace, .eof] := by
  cases h with
  | varDeclared h =>
    obtain ⟨t, us, rfl, ht⟩ := h.exists_varWord
    exact ⟨t, us, rfl, by simp [ht]⟩
  | stated h =>
    obtain ⟨t, us, rfl, ht⟩ := h.statement_begins
    exact ⟨t, us, rfl, fun hm => ht (List.mem_cons_of_mem _ hm)⟩

theorem primary_begins (h : Derives lenient .primary ts rest p) :
    ∃ t us, ts = t :: us ∧ t.kind ∉ [.bang, .minus] := by
  cases h with
  | literal h =>
    refine ⟨_, _, rfl, fun hm => ?_⟩
    have hall : ∀ k ∈ [Kind.number, .string], k ∉ [Kind.bang, .minus] := by decide
    exact hall _ h hm
  | trueWord h | falseWord h | nilWord h | name h | grouping h => exact ⟨_, _, rfl, by simp [h]⟩

theorem eq_cons_of_variable {n : Token} (h : Derives lenient s ts rest (.variable n)) :
    ts = n :: rest ∧ n.kind = .identifier := by
  generalize hp : Phrase.variable n = q at h
  induction h with
  | name ht => cases hp; exact ⟨rfl, ht⟩
  | varDeclared _ ih | stated _ ih | expressed _ ih | initializerVar _ ih | initializerExpression _ ih
  | clausePresent _ ih | joinedAll _ ih | single _ ih | tightest _ ih | primary _ ih => exact ih hp
  | block _ hd _ _ =>
    obtain ⟨ps, rfl⟩ := hd.eq_block
    cases hp
  | _ => cases hp

theorem node_ne_variable (h : Derives lenient s ts rest p)
    (hs : (∃ levels, s = .operand levels) ∨ s = .unary ∨ s = .primary) (hp : ∀ n, p ≠ .variable n) (x : Node) :
    p.node ≠ .variable x := by
  induction h with
  | joined =>
    rw [Phrase.node, Phrase.fold]
    split <;> simp
  | single _ ih => exact ih (by simp) hp
  | tightest _ ih => exact ih (by simp) hp
  | primary _ ih => exact ih (by simp) hp
  | name => exact absurd rfl (hp _)
  | unary | literal | trueWord | falseWord | nilWord | grouping => simp [Phrase.node]
  | _ => simp at hs

end Derives

end Grammar

def Ascent.Phrase.node? (p : Phrase) : Option Node :=
  if p.isAbsent then none else some p.node

theorem Ascent.Phrase.node_assign {t v : Phrase} (e : Token) (ht : ∀ n, t ≠ .variable n) :
    (Phrase.assign t e v).node = v.node := by
  rw [Phrase.node]
  exact ht

theorem Ascent.Phrase.misassigned_assign {t v : Phrase} (e : Token) (ht : ∀ n, t ≠ .variable n) :
    (Phrase.assign t e v).misassigned = t.misassigned ++ v.misassigned ++ [e] := by
  rw [Phrase.misassigned]
  exact ht

namespace Grammar

namespace Derives

variable {s : Symbol} {ts rest : List Token} {p : Phrase}

theorem to_lenient (h : Derives false s ts rest p) : Derives true s ts rest p ∧ p.misassigned = [] := by
  induction h with
  | noDeclaration => exact ⟨.noDeclaration, rfl⟩
  | moreDeclarations _ _ ih ih' =>
    refine ⟨.moreDeclarations ih.1 ih'.1, ?_⟩
    have h := ih'.2
    rw [Phrase.misassigned] at h
    simp [Phrase.misassigned, Phrase.misassignedAll, ih.2, h]
  | varDeclared _ ih => exact ⟨.varDeclared ih.1, ih.2⟩
  | stated _ ih => exact ⟨.stated ih.1, ih.2⟩
  | varAbsent hv hn hs => exact ⟨.varAbsent hv hn hs, rfl⟩
  | varInitialized hv hn he _ hs ih => exact ⟨.varInitialized hv hn he ih.1 hs, ih.2⟩
  | expressionStatement _ hs ih => exact ⟨.expressionStatement ih.1 hs, ih.2⟩
  | expressed _ ih => exact ⟨.expressed ih.1, ih.2⟩
  | print hk _ hs ih => exact ⟨.print hk ih.1 hs, ih.2⟩
  | block hl _ hr ih => exact ⟨.block hl ih.1 hr, ih.2⟩
  | ifOnly hk hl _ hr _ hnext ih ih' =>
    exact ⟨.ifOnly hk hl ih.1 hr ih'.1 hnext, by simp [Phrase.misassigned, ih.2, ih'.2]⟩
  | ifElse hk hl _ hr _ he _ ih ih' ih'' =>
    exact ⟨.ifElse hk hl ih.1 hr ih'.1 he ih''.1, by simp [Phrase.misassigned, ih.2, ih'.2, ih''.2]⟩
  | loop hk hl _ hr _ ih ih' => exact ⟨.loop hk hl ih.1 hr ih'.1, by simp [Phrase.misassigned, ih.2, ih'.2]⟩
  | forLoop hk hl _ _ hs _ hr _ ihi ihc ihe ihb =>
    exact ⟨.forLoop hk hl ihi.1 ihc.1 hs ihe.1 hr ihb.1, by simp [Phrase.misassigned, ihi.2, ihc.2, ihe.2, ihb.2]⟩
  | initializerAbsent hs => exact ⟨.initializerAbsent hs, rfl⟩
  | initializerVar _ ih => exact ⟨.initializerVar ih.1, ih.2⟩
  | initializerExpression _ ih => exact ⟨.initializerExpression ih.1, ih.2⟩
  | clauseAbsent => exact ⟨.clauseAbsent, rfl⟩
  | clausePresent _ ih => exact ⟨.clausePresent ih.1, ih.2⟩
  | assign hn he _ ih => exact ⟨.assign hn he ih.1, by simp [Phrase.misassigned, ih.2]⟩
  | misassign h => cases h
  | joinedAll _ ih => exact ⟨.joinedAll ih.1, ih.2⟩
  | joined _ ho _ ih ih' => exact ⟨.joined ih.1 ho ih'.1, by simp [Phrase.misassigned, ih.2, ih'.2]⟩
  | single _ ih => exact ⟨.single ih.1, ih.2⟩
  | tightest _ ih => exact ⟨.tightest ih.1, ih.2⟩
  | unary ho _ ih => exact ⟨.unary ho ih.1, ih.2⟩
  | primary _ ih => exact ⟨.primary ih.1, ih.2⟩
  | literal ht => exact ⟨.literal ht, rfl⟩
  | trueWord ht => exact ⟨.trueWord ht, rfl⟩
  | falseWord ht => exact ⟨.falseWord ht, rfl⟩
  | nilWord ht => exact ⟨.nilWord ht, rfl⟩
  | name ht => exact ⟨.name ht, rfl⟩
  | grouping hl _ hr ih => exact ⟨.grouping hl ih.1 hr, ih.2⟩

theorem to_strict (h : Derives true s ts rest p) (hp : p.misassigned = []) : Derives false s ts rest p := by
  induction h with
  | noDeclaration => exact .noDeclaration
  | moreDeclarations _ _ ih ih' =>
    simp only [Phrase.misassigned, Phrase.misassignedAll, List.append_eq_nil_iff] at hp ih'
    exact .moreDeclarations (ih hp.1) (ih' hp.2)
  | varDeclared _ ih => exact .varDeclared (ih hp)
  | stated _ ih => exact .stated (ih hp)
  | varAbsent hv hn hs => exact .varAbsent hv hn hs
  | varInitialized hv hn he _ hs ih => exact .varInitialized hv hn he (ih hp) hs
  | expressionStatement _ hs ih => exact .expressionStatement (ih hp) hs
  | expressed _ ih => exact .expressed (ih hp)
  | print hk _ hs ih => exact .print hk (ih hp) hs
  | block hl _ hr ih => exact .block hl (ih hp) hr
  | ifOnly hk hl _ hr _ hnext ih ih' =>
    simp only [Phrase.misassigned, List.append_nil, List.append_eq_nil_iff] at hp
    exact .ifOnly hk hl (ih hp.1) hr (ih' hp.2) hnext
  | ifElse hk hl _ hr _ he _ ih ih' ih'' =>
    simp only [Phrase.misassigned, List.append_eq_nil_iff] at hp
    exact .ifElse hk hl (ih hp.1.1) hr (ih' hp.1.2) he (ih'' hp.2)
  | loop hk hl _ hr _ ih ih' =>
    simp only [Phrase.misassigned, List.append_eq_nil_iff] at hp
    exact .loop hk hl (ih hp.1) hr (ih' hp.2)
  | forLoop hk hl _ _ hs _ hr _ ihi ihc ihe ihb =>
    simp only [Phrase.misassigned, List.append_eq_nil_iff] at hp
    exact .forLoop hk hl (ihi hp.1.1.1) (ihc hp.1.1.2) hs (ihe hp.1.2) hr (ihb hp.2)
  | initializerAbsent hs => exact .initializerAbsent hs
  | initializerVar _ ih => exact .initializerVar (ih hp)
  | initializerExpression _ ih => exact .initializerExpression (ih hp)
  | clauseAbsent => exact .clauseAbsent
  | clausePresent _ ih => exact .clausePresent (ih hp)
  | assign hn he _ ih => exact .assign hn he (ih hp)
  | misassign _ _ hne =>
    rw [Phrase.misassigned_assign _ hne] at hp
    simp at hp
  | joinedAll _ ih => exact .joinedAll (ih hp)
  | joined _ ho _ ih ih' =>
    simp only [Phrase.misassigned, List.append_eq_nil_iff] at hp
    exact .joined (ih hp.1) ho (ih' hp.2)
  | single _ ih => exact .single (ih hp)
  | tightest _ ih => exact .tightest (ih hp)
  | unary ho _ ih => exact .unary ho (ih hp)
  | primary _ ih => exact .primary (ih hp)
  | literal ht => exact .literal ht
  | trueWord ht => exact .trueWord ht
  | falseWord ht => exact .falseWord ht
  | nilWord ht => exact .nilWord ht
  | name ht => exact .name ht
  | grouping hl _ hr ih => exact .grouping hl (ih hp) hr

end Derives

def Program (lenient : Bool) (tokens : List Token) (ps : List Phrase) : Prop :=
  ∃ e : Token, e.kind = .eof ∧ Derives lenient .declarations tokens [e] (.block ps)

theorem Program.iff_lenient {tokens : List Token} {ps : List Phrase} :
    Program false tokens ps ↔ Program true tokens ps ∧ Phrase.misassignedAll ps = [] := by
  constructor
  · rintro ⟨e, he, h⟩
    exact ⟨⟨e, he, h.to_lenient.1⟩, h.to_lenient.2⟩
  · rintro ⟨⟨e, he, h⟩, hps⟩
    exact ⟨e, he, h.to_strict hps⟩

theorem Derives.end_eq {lenient : Bool} {s : Symbol} {ts : List Token} {e x : Token} {p : Phrase}
    (h : Derives lenient s (ts ++ [e]) [x] p) : x = e := by
  have hlast := h.suffix.getLast (by simp)
  simpa using hlast

theorem Program.of_derives {lenient : Bool} {ts us : List Token} {e t : Token} {ps : List Phrase}
    (hts : ∀ t ∈ ts, t.kind ≠ .eof) (h : Derives lenient .declarations (ts ++ [e]) (t :: us) (.block ps))
    (ht : t.kind = .eof) : Program lenient (ts ++ [e]) ps := by
  obtain ⟨vs, hvs⟩ := h.suffix
  rcases List.append_eq_append_iff.mp hvs with ⟨as, rfl, has⟩ | ⟨as, rfl, has⟩
  · cases as with
    | nil =>
      simp only [List.nil_append, List.cons.injEq] at has
      exact ⟨t, ht, has.2 ▸ h⟩
    | cons a as =>
      simp only [List.cons_append, List.cons.injEq] at has
      exact absurd ht (hts t (by simp [has.1]))
  · cases as with
    | nil =>
      simp only [List.nil_append, List.cons.injEq] at has
      exact ⟨t, ht, has.2 ▸ h⟩
    | cons a as => simp at has

end Grammar

end Lox
