import Lox.Proofs.Grammar

/-!
The grammar as it is documented, with its nonterminals by name, and the nodes that it prescribes: operators associate to
the left on each of six levels, assignments and unary operators to the right, an `else` belongs to the nearest open `if`,
and a `for` loop is a `while` loop in a block. Tokens are read off the front of a list. Main statement:
`program_iff_phrases`.
-/
namespace Lox.Productions

open Grammar (Derives Symbol next?)
open Ascent (Phrase)

inductive Tier where
  | assignment
  | logicOr
  | logicAnd
  | equality
  | comparison
  | term
  | factor
  | unary
  | primary

inductive Expression : Tier → List Token → List Token → Node → Prop
  | assign {name equals ts rest value} :
      name.kind = .identifier → equals.kind = .equal → Expression .assignment ts rest value →
      Expression .assignment (name :: equals :: ts) rest (.assign (.token name) value)
  | ofLogicOr {ts rest n} : Expression .logicOr ts rest n → Expression .assignment ts rest n
  | or {o ts mid rest a b} :
      Expression .logicOr ts (o :: mid) a → o.kind = .orWord → Expression .logicAnd mid rest b →
      Expression .logicOr ts rest (.logical a (.token o) b)
  | ofLogicAnd {ts rest n} : Expression .logicAnd ts rest n → Expression .logicOr ts rest n
  | and {o ts mid rest a b} :
      Expression .logicAnd ts (o :: mid) a → o.kind = .andWord → Expression .equality mid rest b →
      Expression .logicAnd ts rest (.logical a (.token o) b)
  | ofEquality {ts rest n} : Expression .equality ts rest n → Expression .logicAnd ts rest n
  | equal {o ts mid rest a b} :
      Expression .equality ts (o :: mid) a → o.kind ∈ [.equalEqual, .bangEqual] → Expression .comparison mid rest b →
      Expression .equality ts rest (.binary a (.token o) b)
  | ofComparison {ts rest n} : Expression .comparison ts rest n → Expression .equality ts rest n
  | compare {o ts mid rest a b} :
      Expression .comparison ts (o :: mid) a → o.kind ∈ [.greater, .greaterEqual, .less, .lessEqual] →
      Expression .term mid rest b → Expression .comparison ts rest (.binary a (.token o) b)
  | ofTerm {ts rest n} : Expression .term ts rest n → Expression .comparison ts rest n
  | add {o ts mid rest a b} :
      Expression .term ts (o :: mid) a → o.kind ∈ [.plus, .minus] → Expression .factor mid rest b →
      Expression .term ts rest (.binary a (.token o) b)
  | ofFactor {ts rest n} : Expression .factor ts rest n → Expression .term ts rest n
  | multiply {o ts mid rest a b} :
      Expression .factor ts (o :: mid) a → o.kind ∈ [.star, .slash] → Expression .unary mid rest b →
      Expression .factor ts rest (.binary a (.token o) b)
  | ofUnary {ts rest n} : Expression .unary ts rest n → Expression .factor ts rest n
  | negate {o ts rest a} :
      o.kind ∈ [.bang, .minus] → Expression .unary ts rest a → Expression .unary (o :: ts) rest (.unary (.token o) a)
  | ofPrimary {ts rest n} : Expression .primary ts rest n → Expression .unary ts rest n
  | literal {t rest} : t.kind ∈ [.number, .string] → Expression .primary (t :: rest) rest (.literal t.literal)
  | trueWord {t rest} : t.kind = .trueWord → Expression .primary (t :: rest) rest (.literal (.bool true))
  | falseWord {t rest} : t.kind = .falseWord → Expression .primary (t :: rest) rest (.literal (.bool false))
  | nilWord {t rest} : t.kind = .nilWord → Expression .primary (t :: rest) rest (.literal .nil)
  | name {t rest} : t.kind = .identifier → Expression .primary (t :: rest) rest (.variable (.token t))
  | grouping {l r ts rest n} :
      l.kind = .leftParen → Expression .assignment ts (r :: rest) n → r.kind = .rightParen →
      Expression .primary (l :: ts) rest (.grouping n)

inductive VarDeclaration : List Token → List Token → Node → Prop
  | absent {v n s rest} :
      v.kind = .varWord → n.kind = .identifier → s.kind = .semicolon →
      VarDeclaration (v :: n :: s :: rest) rest (.var (.token n) (.data .nil))
  | initialized {v n e s ts rest a} :
      v.kind = .varWord → n.kind = .identifier → e.kind = .equal → Expression .assignment ts (s :: rest) a →
      s.kind = .semicolon → VarDeclaration (v :: n :: e :: ts) rest (.var (.token n) a)

inductive ExpressionStatement : List Token → List Token → Node → Prop
  | mk {s ts rest a} :
      Expression .assignment ts (s :: rest) a → s.kind = .semicolon → ExpressionStatement ts rest (.expression a)

inductive Initializer : List Token → List Token → Option Node → Prop
  | absent {s rest} : s.kind = .semicolon → Initializer (s :: rest) rest none
  | var {ts rest n} : VarDeclaration ts rest n → Initializer ts rest (some n)
  | expression {ts rest n} : ExpressionStatement ts rest n → Initializer ts rest (some n)

inductive Clause : List Token → List Token → Option Node → Prop
  | absent {rest} : Clause rest rest none
  | present {ts rest a} : Expression .assignment ts rest a → Clause ts rest (some a)

/-- The body of a `for` loop with what is done behind it each time. -/
def followed (body : Node) : Option Node → Node
  | none => body
  | some increment => .block [body, .expression increment]

/-- A loop in the scope of what is done once before it. -/
def enclosed (loop : Node) : Option Node → Node
  | none => loop
  | some initializer => .block [initializer, loop]

mutual

inductive Declarations : List Token → List Token → List Node → Prop
  | nil {rest} : Declarations rest rest []
  | cons {ts mid rest n ns} : Declaration ts mid n → Declarations mid rest ns → Declarations ts rest (n :: ns)

inductive Declaration : List Token → List Token → Node → Prop
  | var {ts rest n} : VarDeclaration ts rest n → Declaration ts rest n
  | statement {ts rest n} : Statement ts rest n → Declaration ts rest n

inductive Statement : List Token → List Token → Node → Prop
  | expression {ts rest n} : ExpressionStatement ts rest n → Statement ts rest n
  | print {k s ts rest a} :
      k.kind = .printWord → Expression .assignment ts (s :: rest) a → s.kind = .semicolon →
      Statement (k :: ts) rest (.print a)
  | block {l r ts rest ns} :
      l.kind = .leftBrace → Declarations ts (r :: rest) ns → r.kind = .rightBrace → Statement (l :: ts) rest (.block ns)
  | ifOnly {k l r ts mid rest c a} :
      k.kind = .ifWord → l.kind = .leftParen → Expression .assignment ts (r :: mid) c → r.kind = .rightParen →
      Statement mid rest a → next? rest ≠ some .elseWord →
      Statement (k :: l :: ts) rest (.branch c a (.data .nil))
  | ifElse {k l r e ts mid mid' rest c a b} :
      k.kind = .ifWord → l.kind = .leftParen → Expression .assignment ts (r :: mid) c → r.kind = .rightParen →
      Statement mid (e :: mid') a → e.kind = .elseWord → Statement mid' rest b →
      Statement (k :: l :: ts) rest (.branch c a b)
  | whileLoop {k l r ts mid rest c b} :
      k.kind = .whileWord → l.kind = .leftParen → Expression .assignment ts (r :: mid) c → r.kind = .rightParen →
      Statement mid rest b → Statement (k :: l :: ts) rest (.loop c b)
  | forLoop {k l s r ts ts' mid mid' rest i c e b} :
      k.kind = .forWord → l.kind = .leftParen → Initializer ts ts' i → Clause ts' (s :: mid) c → s.kind = .semicolon →
      Clause mid (r :: mid') e → r.kind = .rightParen → Statement mid' rest b →
      Statement (k :: l :: ts) rest (enclosed (.loop (c.getD (.literal (.bool true))) (followed b e)) i)

end

def Program (tokens : List Token) (ns : List Node) : Prop :=
  ∃ e : Token, e.kind = .eof ∧ Declarations tokens [e] ns

def Tier.levels? : Tier → Option (List Level)
  | .logicOr => some [Ascent.logicOr, Ascent.logicAnd, Ascent.equality, Ascent.comparison, Ascent.term, Ascent.factor]
  | .logicAnd => some [Ascent.logicAnd, Ascent.equality, Ascent.comparison, Ascent.term, Ascent.factor]
  | .equality => some [Ascent.equality, Ascent.comparison, Ascent.term, Ascent.factor]
  | .comparison => some [Ascent.comparison, Ascent.term, Ascent.factor]
  | .term => some [Ascent.term, Ascent.factor]
  | .factor => some [Ascent.factor]
  | .unary => some []
  | .assignment | .primary => none

theorem forLoop_eq (i c e : Option Node) (b : Node) :
    Node.forLoop i c e b = enclosed (.loop (c.getD (.literal (.bool true))) (followed b e)) i := by
  cases i <;> cases e <;> rfl

section

variable {ts mid rest : List Token} {o : Token} {a b n : Node} {l : Level} {ls : List Level} {tier tier' : Tier}

theorem Expression.join (htier : tier.levels? = some (l :: ls)) (ho : o.kind ∈ l.operators)
    (ha : Expression tier ts (o :: mid) a) (hb : ∀ tier', tier'.levels? = some ls → Expression tier' mid rest b) :
    Expression tier ts rest (Phrase.fold l a o b) := by
  cases tier with
  | assignment | unary | primary => cases htier
  | logicOr =>
    cases htier
    exact .or ha (List.mem_singleton.mp ho) (hb .logicAnd rfl)
  | logicAnd =>
    cases htier
    exact .and ha (List.mem_singleton.mp ho) (hb .equality rfl)
  | equality =>
    cases htier
    exact .equal ha (by simpa [Ascent.equality, or_comm] using ho) (hb .comparison rfl)
  | comparison =>
    cases htier
    exact .compare ha ho (hb .term rfl)
  | term =>
    cases htier
    exact .add ha (by simpa [Ascent.term, or_comm] using ho) (hb .factor rfl)
  | factor =>
    cases htier
    exact .multiply ha (by simpa [Ascent.factor, or_comm] using ho) (hb .unary rfl)

theorem Expression.single (htier : tier.levels? = some (l :: ls))
    (h : ∀ tier', tier'.levels? = some ls → Expression tier' ts rest n) : Expression tier ts rest n := by
  cases tier with
  | assignment | unary | primary => cases htier
  | logicOr =>
    cases htier
    exact .ofLogicAnd (h .logicAnd rfl)
  | logicAnd =>
    cases htier
    exact .ofEquality (h .equality rfl)
  | equality =>
    cases htier
    exact .ofComparison (h .comparison rfl)
  | comparison =>
    cases htier
    exact .ofTerm (h .term rfl)
  | term =>
    cases htier
    exact .ofFactor (h .factor rfl)
  | factor =>
    cases htier
    exact .ofUnary (h .unary rfl)

theorem Expression.tightest (htier : tier.levels? = some []) (h : Expression .unary ts rest n) :
    Expression tier ts rest n := by
  cases tier with
  | unary => exact h
  | _ => cases htier

end

def Prescribed (ts rest : List Token) (p : Phrase) : Symbol → Prop
  | .declarations => ∃ ps, p = .block ps ∧ Declarations ts rest (Phrase.nodes ps)
  | .declaration => Declaration ts rest p.node
  | .varDeclaration => VarDeclaration ts rest p.node
  | .statement => Statement ts rest p.node
  | .expressionStatement => ExpressionStatement ts rest p.node
  | .forInitializer => Initializer ts rest p.node?
  | .clause => Clause ts rest p.node?
  | .expression => Expression .assignment ts rest p.node
  | .operand levels => ∀ tier : Tier, tier.levels? = some levels → Expression tier ts rest p.node
  | .unary => Expression .unary ts rest p.node
  | .primary => Expression .primary ts rest p.node

section

variable {ts rest : List Token} {s : Symbol} {p : Phrase}

theorem node?_of_derives (h : Derives false s ts rest p) (hi : s ≠ .forInitializer) (hc : s ≠ .clause) :
    p.node? = some p.node :=
  if_neg (by simp [h.isAbsent_eq_false hi hc])

theorem prescribed_of_derives (h : Derives false s ts rest p) : Prescribed ts rest p s := by
  induction h with
  | noDeclaration => exact ⟨[], rfl, .nil⟩
  | moreDeclarations _ _ ih ih' =>
    obtain ⟨ps, hps, h⟩ := ih'
    cases hps
    exact ⟨_, rfl, .cons ih h⟩
  | varDeclared _ ih => exact .var ih
  | stated _ ih => exact .statement ih
  | varAbsent hv hn hs => exact .absent hv hn hs
  | varInitialized hv hn he _ hs ih => exact .initialized hv hn he ih hs
  | expressionStatement _ hs ih => exact .mk ih hs
  | expressed _ ih => exact .expression ih
  | print hk _ hs ih => exact .print hk ih hs
  | block hl _ hr ih =>
    obtain ⟨ps, rfl, h⟩ := ih
    exact .block hl h hr
  | ifOnly hk hl _ hr _ hnext ih ih' => exact .ifOnly hk hl ih hr ih' hnext
  | ifElse hk hl _ hr _ he _ ih ih' ih'' => exact .ifElse hk hl ih hr ih' he ih''
  | loop hk hl _ hr _ ih ih' => exact .whileLoop hk hl ih hr ih'
  | forLoop hk hl _ _ hs _ hr _ ihi ihc ihe ihb =>
    have h := Statement.forLoop hk hl ihi ihc hs ihe hr ihb
    rw [← forLoop_eq] at h
    exact h
  | initializerAbsent hs => exact .absent hs
  | initializerVar h ih =>
    rw [Prescribed, node?_of_derives h (by simp) (by simp)]
    exact .var ih
  | initializerExpression h ih =>
    rw [Prescribed, node?_of_derives h (by simp) (by simp)]
    exact .expression ih
  | clauseAbsent => exact .absent
  | clausePresent h ih =>
    rw [Prescribed, node?_of_derives h (by simp) (by simp)]
    exact .present ih
  | assign hn he _ ih => exact .assign hn he ih
  | misassign h => cases h
  | joinedAll _ ih => exact .ofLogicOr (ih .logicOr rfl)
  | joined _ ho _ ih ih' => exact fun tier htier => .join htier ho (ih tier htier) ih'
  | single _ ih => exact fun _ htier => .single htier ih
  | tightest _ ih => exact fun _ htier => .tightest htier ih
  | unary ho _ ih => exact .negate ho ih
  | primary _ ih => exact .ofPrimary ih
  | literal ht => exact .literal ht
  | trueWord ht => exact .trueWord ht
  | falseWord ht => exact .falseWord ht
  | nilWord ht => exact .nilWord ht
  | name ht => exact .name ht
  | grouping hl _ hr ih => exact .grouping hl ih hr

end

def Tier.symbol (tier : Tier) : Symbol :=
  match tier with
  | .assignment => .expression
  | .unary => .unary
  | .primary => .primary
  | _ => .operand (tier.levels?.getD [])

section

variable {ts rest : List Token} {tier : Tier} {n : Node} {n? : Option Node} {ns : List Node}

def Phrased (s : Symbol) (ts rest : List Token) (n : Node) : Prop :=
  ∃ p : Phrase, p.node = n ∧ Derives false s ts rest p

theorem Expression.phrased (h : Expression tier ts rest n) : Phrased tier.symbol ts rest n := by
  have join {l : Level} {ls : List Level} {o : Token} {ts mid rest : List Token} {a b : Node}
      (ha : Phrased (.operand (l :: ls)) ts (o :: mid) a) (ho : o.kind ∈ l.operators)
      (hb : Phrased (.operand ls) mid rest b) : Phrased (.operand (l :: ls)) ts rest (Phrase.fold l a o b) := by
    obtain ⟨p, rfl, hp⟩ := ha
    obtain ⟨q, rfl, hq⟩ := hb
    exact ⟨_, rfl, .joined hp ho hq⟩
  have single {l : Level} {ls : List Level} {ts rest : List Token} {n : Node} (h : Phrased (.operand ls) ts rest n) :
      Phrased (.operand (l :: ls)) ts rest n := by
    obtain ⟨p, hp, h⟩ := h
    exact ⟨p, hp, .single h⟩
  have tightest {ts rest : List Token} {n : Node} (h : Phrased .unary ts rest n) : Phrased (.operand []) ts rest n := by
    obtain ⟨p, hp, h⟩ := h
    exact ⟨p, hp, .tightest h⟩
  induction h with
  | assign hn he _ ih =>
    obtain ⟨p, rfl, h⟩ := ih
    exact ⟨_, rfl, .assign hn he h⟩
  | ofLogicOr _ ih =>
    obtain ⟨p, hp, h⟩ := ih
    exact ⟨p, hp, .joinedAll h⟩
  | or _ ho _ ih ih' => exact join ih (List.mem_singleton.mpr ho) ih'
  | and _ ho _ ih ih' => exact join ih (List.mem_singleton.mpr ho) ih'
  | equal _ ho _ ih ih' => exact join ih (by simpa [Ascent.equality, or_comm] using ho) ih'
  | compare _ ho _ ih ih' => exact join ih ho ih'
  | add _ ho _ ih ih' => exact join ih (by simpa [Ascent.term, or_comm] using ho) ih'
  | multiply _ ho _ ih ih' => exact join ih (by simpa [Ascent.factor, or_comm] using ho) (tightest ih')
  | ofLogicAnd _ ih | ofEquality _ ih | ofComparison _ ih | ofTerm _ ih | ofFactor _ ih => exact single ih
  | ofUnary _ ih => exact single (tightest ih)
  | negate ho _ ih =>
    obtain ⟨p, rfl, h⟩ := ih
    exact ⟨_, rfl, .unary ho h⟩
  | ofPrimary _ ih =>
    obtain ⟨p, hp, h⟩ := ih
    exact ⟨p, hp, .primary h⟩
  | literal ht => exact ⟨_, rfl, .literal ht⟩
  | trueWord ht => exact ⟨_, rfl, .trueWord ht⟩
  | falseWord ht => exact ⟨_, rfl, .falseWord ht⟩
  | nilWord ht => exact ⟨_, rfl, .nilWord ht⟩
  | name ht => exact ⟨_, rfl, .name ht⟩
  | grouping hl _ hr ih =>
    obtain ⟨p, rfl, h⟩ := ih
    exact ⟨_, rfl, .grouping hl h hr⟩

theorem VarDeclaration.phrased (h : VarDeclaration ts rest n) : Phrased .varDeclaration ts rest n := by
  cases h with
  | absent hv hn hs => exact ⟨_, rfl, .varAbsent hv hn hs⟩
  | initialized hv hn he ha hs =>
    obtain ⟨p, rfl, h⟩ := ha.phrased
    exact ⟨_, rfl, .varInitialized hv hn he h hs⟩

theorem ExpressionStatement.phrased (h : ExpressionStatement ts rest n) : Phrased .expressionStatement ts rest n := by
  obtain ⟨ha, hs⟩ := h
  obtain ⟨p, rfl, h⟩ := ha.phrased
  exact ⟨_, rfl, .expressionStatement h hs⟩

theorem Initializer.phrased (h : Initializer ts rest n?) :
    ∃ p : Phrase, p.node? = n? ∧ Derives false .forInitializer ts rest p := by
  cases h with
  | absent hs => exact ⟨_, rfl, .initializerAbsent hs⟩
  | var h =>
    obtain ⟨p, rfl, hp⟩ := h.phrased
    exact ⟨p, node?_of_derives hp (by simp) (by simp), .initializerVar hp⟩
  | expression h =>
    obtain ⟨p, rfl, hp⟩ := h.phrased
    exact ⟨p, node?_of_derives hp (by simp) (by simp), .initializerExpression hp⟩

theorem Clause.phrased (h : Clause ts rest n?) : ∃ p : Phrase, p.node? = n? ∧ Derives false .clause ts rest p := by
  cases h with
  | absent => exact ⟨_, rfl, .clauseAbsent⟩
  | present h =>
    obtain ⟨p, rfl, hp⟩ := h.phrased
    exact ⟨p, node?_of_derives hp (by simp [Tier.symbol]) (by simp [Tier.symbol]), .clausePresent hp⟩

mutual

theorem Declarations.phrased {ts rest : List Token} {ns : List Node} : Declarations ts rest ns →
    ∃ ps, Phrase.nodes ps = ns ∧ Derives false .declarations ts rest (.block ps)
  | .nil => ⟨[], rfl, .noDeclaration⟩
  | .cons h h' => by
    obtain ⟨p, rfl, hp⟩ := h.phrased
    obtain ⟨ps, rfl, hps⟩ := h'.phrased
    exact ⟨p :: ps, rfl, .moreDeclarations hp hps⟩

theorem Declaration.phrased {ts rest : List Token} {n : Node} : Declaration ts rest n → Phrased .declaration ts rest n
  | .var h => by
    obtain ⟨p, hn, hp⟩ := h.phrased
    exact ⟨p, hn, .varDeclared hp⟩
  | .statement h => by
    obtain ⟨p, hn, hp⟩ := h.phrased
    exact ⟨p, hn, .stated hp⟩

theorem Statement.phrased {ts rest : List Token} {n : Node} : Statement ts rest n → Phrased .statement ts rest n
  | .expression h => by
    obtain ⟨p, hn, hp⟩ := h.phrased
    exact ⟨p, hn, .expressed hp⟩
  | .print hk ha hs => by
    obtain ⟨a, rfl, da⟩ := ha.phrased
    exact ⟨_, rfl, .print hk da hs⟩
  | .block hl h hr => by
    obtain ⟨ps, rfl, hps⟩ := h.phrased
    exact ⟨.block ps, rfl, .block hl hps hr⟩
  | .ifOnly hk hl hc hr ha hnext => by
    obtain ⟨c, rfl, dc⟩ := hc.phrased
    obtain ⟨a, rfl, da⟩ := ha.phrased
    exact ⟨_, rfl, .ifOnly hk hl dc hr da hnext⟩
  | .ifElse hk hl hc hr ha he hb => by
    obtain ⟨c, rfl, dc⟩ := hc.phrased
    obtain ⟨a, rfl, da⟩ := ha.phrased
    obtain ⟨b, rfl, db⟩ := hb.phrased
    exact ⟨_, rfl, .ifElse hk hl dc hr da he db⟩
  | .whileLoop hk hl hc hr hb => by
    obtain ⟨c, rfl, dc⟩ := hc.phrased
    obtain ⟨b, rfl, db⟩ := hb.phrased
    exact ⟨_, rfl, .loop hk hl dc hr db⟩
  | .forLoop hk hl hi hc hs he hr hb => by
    obtain ⟨i, rfl, di⟩ := hi.phrased
    obtain ⟨c, rfl, dc⟩ := hc.phrased
    obtain ⟨e, rfl, de⟩ := he.phrased
    obtain ⟨b, rfl, db⟩ := hb.phrased
    exact ⟨.forLoop i c e b, forLoop_eq i.node? c.node? e.node? b.node, .forLoop hk hl di dc hs de hr db⟩

end

theorem program_iff_phrases {tokens : List Token} :
    Program tokens ns ↔ ∃ ps, Grammar.Program false tokens ps ∧ Phrase.nodes ps = ns := by
  constructor
  · rintro ⟨e, he, h⟩
    obtain ⟨ps, hps, h⟩ := h.phrased
    exact ⟨ps, ⟨e, he, h⟩, hps⟩
  · rintro ⟨ps, ⟨e, he, h⟩, rfl⟩
    obtain ⟨qs, hqs, h⟩ := prescribed_of_derives h
    cases hqs
    exact ⟨e, he, h⟩

end

end Lox.Productions
