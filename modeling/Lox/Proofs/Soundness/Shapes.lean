import Lox.Proofs.Agreement

namespace Lox

open Ascent (Phrase)
open Grammar

/-- The values that programs make: nil, booleans, numbers and texts. -/
def Value.Primitive : Value → Prop
  | .nil | .bool _ | .number _ | .text _ => True
  | .whole _ | .list _ | .record _ => False

def unaryKinds : List Kind :=
  [.bang, .minus]

def binaryKinds : List Kind :=
  [.plus, .minus, .star, .slash, .greater, .greaterEqual, .less, .lessEqual, .equalEqual, .bangEqual]

def logicalKinds : List Kind :=
  [.orWord, .andWord]

structure Token.IsIdentifier (t : Token) : Prop where
  kind : t.kind = .identifier
  lexeme : ∃ name, t.lexeme = .text name

structure Token.Scanned (t : Token) : Prop where
  lexeme : ∃ w, t.lexeme = .text w
  literal : t.literal.Primitive

namespace Node

inductive IsExpression (ts : List Token) : Node → Prop
  | literal {v} : v.Primitive → (v.isNumber = true → ∃ t ∈ ts, t.literal = v) → IsExpression ts (.literal v)
  | grouping {e} : IsExpression ts e → IsExpression ts (.grouping e)
  | unary {o e} : o ∈ ts → o.kind ∈ unaryKinds → IsExpression ts e → IsExpression ts (.unary (.token o) e)
  | binary {a o b} : IsExpression ts a → o ∈ ts → o.kind ∈ binaryKinds → IsExpression ts b →
      IsExpression ts (.binary a (.token o) b)
  | logical {a o b} : IsExpression ts a → o ∈ ts → o.kind ∈ logicalKinds → IsExpression ts b →
      IsExpression ts (.logical a (.token o) b)
  | variable {t} : t ∈ ts → t.IsIdentifier → IsExpression ts (.variable (.token t))
  | assign {t e} : t ∈ ts → t.IsIdentifier → IsExpression ts e → IsExpression ts (.assign (.token t) e)

inductive IsStatement (ts : List Token) : Node → Prop
  | expression {e} : IsExpression ts e → IsStatement ts (.expression e)
  | print {e} : IsExpression ts e → IsStatement ts (.print e)
  | varAbsent {t} : t ∈ ts → t.IsIdentifier → IsStatement ts (.var (.token t) .absent)
  | varInitialized {t e} : t ∈ ts → t.IsIdentifier → IsExpression ts e → IsStatement ts (.var (.token t) e)
  | block {ns} : (∀ n ∈ ns, IsStatement ts n) → IsStatement ts (.block ns)
  | branchOnly {c a} : IsExpression ts c → IsStatement ts a → IsStatement ts (.branch c a .absent)
  | branch {c a b} : IsExpression ts c → IsStatement ts a → IsStatement ts b → IsStatement ts (.branch c a b)
  | loop {c b} : IsExpression ts c → IsStatement ts b → IsStatement ts (.loop c b)

variable {ts : List Token}

theorem IsExpression.ne_absent {e : Node} (h : IsExpression ts e) : e ≠ .absent := by
  rintro rfl
  cases h

theorem IsStatement.ne_absent {n : Node} (h : IsStatement ts n) : n ≠ .absent := by
  rintro rfl
  cases h

theorem isStatement_block {ns : List Node} (h : IsStatement ts (.block ns)) : ∀ n ∈ ns, IsStatement ts n := by
  cases h with
  | block h => exact h

theorem isExpression_fold {l : Level} {a b : Node} {o : Token} (hl : l ∈ Ascent.levels) (ha : IsExpression ts a)
    (ho : o ∈ ts) (hk : o.kind ∈ l.operators) (hb : IsExpression ts b) : IsExpression ts (Phrase.fold l a o b) := by
  have hlogical : ∀ l ∈ Ascent.levels, l.logical = true → ∀ k ∈ l.operators, k ∈ logicalKinds := by decide
  have hbinary : ∀ l ∈ Ascent.levels, l.logical = false → ∀ k ∈ l.operators, k ∈ binaryKinds := by decide
  unfold Phrase.fold
  split
  · exact .logical ha ho (hlogical l hl ‹_› _ hk) hb
  · exact .binary ha ho (hbinary l hl ‹_› _ hk) hb

theorem isStatement_forLoop {initializer condition increment : Option Node} {body : Node}
    (hi : ∀ n ∈ initializer, IsStatement ts n) (hc : ∀ n ∈ condition, IsExpression ts n)
    (he : ∀ n ∈ increment, IsExpression ts n) (hb : IsStatement ts body) :
    IsStatement ts (forLoop initializer condition increment body) := by
  have hcondition : IsExpression ts (condition.getD (.literal (.bool true))) := by
    cases condition with
    | none => exact .literal trivial nofun
    | some c => exact hc c rfl
  have hpair : ∀ {a b}, IsStatement ts a → IsStatement ts b → IsStatement ts (.block [a, b]) := by
    intro a b ha hb
    apply IsStatement.block
    simp only [List.forall_mem_cons, List.not_mem_nil, false_imp_iff, implies_true, and_true]
    exact ⟨ha, hb⟩
  have hloop : IsStatement ts (forLoop none condition increment body) := by
    cases increment with
    | none => exact .loop hcondition hb
    | some e => exact .loop hcondition (hpair hb (.expression (he e rfl)))
  cases initializer with
  | none => exact hloop
  | some s => exact hpair (hi s rfl) hloop

end Node

theorem of_mem_node? {P : Node → Prop} {p : Phrase} (h : p.isAbsent = false → P p.node) : ∀ n ∈ p.node?, P n := by
  intro n hn
  unfold Phrase.node? at hn
  split at hn
  · cases hn
  · cases hn
    exact h (Bool.eq_false_iff.mpr ‹_›)

namespace Grammar

open Node

def Symbol.Shapes (ts : List Token) (p : Phrase) : Symbol → Prop
  | .declarations | .declaration | .varDeclaration | .statement | .expressionStatement => IsStatement ts p.node
  | .forInitializer => p.isAbsent = false → IsStatement ts p.node
  | .clause => p.isAbsent = false → IsExpression ts p.node
  | .expression | .unary | .primary => IsExpression ts p.node
  | .operand levels => levels <:+ Ascent.levels → IsExpression ts p.node

theorem Derives.shapes {s : Symbol} {ts us rest : List Token} {p : Phrase} (h : Derives false s us rest p)
    (hts : ∀ t ∈ ts, t.Scanned) (hsub : us ⊆ ts) : s.Shapes ts p := by
  have hname : ∀ {n : Token}, n ∈ ts → n.kind = .identifier → n.IsIdentifier :=
    fun hn hk => ⟨hk, (hts _ hn).lexeme⟩
  have hrest : ∀ {s us rest p}, Derives false s us rest p → us ⊆ ts → rest ⊆ ts :=
    fun h hsub => List.Subset.trans h.suffix.subset hsub
  induction h with
  | noDeclaration => exact .block nofun
  | moreDeclarations h _ ih ih' =>
    have hps := isStatement_block (ih' (hrest h hsub))
    exact .block (List.forall_mem_cons.mpr ⟨ih hsub, hps⟩)
  | varDeclared _ ih | stated _ ih | expressed _ ih => exact ih hsub
  | joinedAll _ ih => exact ih hsub List.suffix_rfl
  | tightest _ ih => exact fun _ => ih hsub
  | primary _ ih => exact ih hsub
  | single _ ih => exact fun hl => ih hsub ((List.suffix_cons _ _).trans hl)
  | initializerVar _ ih | initializerExpression _ ih | clausePresent _ ih => exact fun _ => ih hsub
  | initializerAbsent | clauseAbsent => exact nofun
  | varAbsent _ hk _ =>
    have hn := hsub (List.mem_cons_of_mem _ List.mem_cons_self)
    exact .varAbsent hn (hname hn hk)
  | varInitialized _ hk _ _ _ ih =>
    have hn := hsub (List.mem_cons_of_mem _ List.mem_cons_self)
    exact .varInitialized hn (hname hn hk) (ih (by grind))
  | expressionStatement _ _ ih => exact .expression (ih hsub)
  | print _ _ _ ih => exact .print (ih (by grind))
  | block _ _ _ ih => exact ih (by grind)
  | ifOnly _ _ h _ _ _ ih ih' =>
    have hmid := hrest h (by grind)
    exact .branchOnly (ih (by grind)) (ih' (by grind))
  | ifElse _ _ h _ h' _ _ ih ih' ih'' =>
    have hmid := hrest h (by grind)
    have hmid' := hrest h' (by grind)
    exact .branch (ih (by grind)) (ih' (by grind)) (ih'' (by grind))
  | loop _ _ h _ _ ih ih' =>
    have hmid := hrest h (by grind)
    exact .loop (ih (by grind)) (ih' (by grind))
  | @forLoop _ _ _ _ _ _ _ _ _ i c e b _ _ h h' _ h'' _ _ ih ih' ih'' ihb =>
    have hclause := hrest h (by grind)
    have hmid := hrest h' hclause
    have hmid' := hrest h'' (by grind)
    have hi := of_mem_node? (ih (by grind))
    have hc := of_mem_node? (ih' hclause)
    have he := of_mem_node? (ih'' (by grind))
    exact isStatement_forLoop hi hc he (ihb (by grind))
  | assign hk _ _ ih =>
    have hn := hsub List.mem_cons_self
    exact .assign hn (hname hn hk) (ih (by grind))
  | misassign h => cases h
  | @joined l ls _ _ _ _ _ _ h hk _ ih ih' =>
    intro hl
    have hmid := hrest h hsub
    exact isExpression_fold (hl.subset List.mem_cons_self) (ih hsub hl) (hmid List.mem_cons_self) hk
      (ih' (by grind) ((List.suffix_cons _ _).trans hl))
  | unary hk _ ih => exact .unary (hsub List.mem_cons_self) hk (ih (by grind))
  | literal =>
    have ht := hsub List.mem_cons_self
    exact .literal (hts _ ht).literal fun _ => ⟨_, ht, rfl⟩
  | trueWord | falseWord | nilWord => exact .literal trivial nofun
  | name hk =>
    have hn := hsub List.mem_cons_self
    exact .variable hn (hname hn hk)
  | grouping _ _ _ ih => exact .grouping (ih (by grind))

end Grammar

theorem token?_scanned {line : Nat} {s : Segment} {t : Token} (h : s.token? line = some t) : t.Scanned := by
  cases s with
  | lexeme k w =>
    cases h
    refine ⟨⟨_, rfl⟩, ?_⟩
    change (Segment.literal k w).Primitive
    unfold Segment.literal
    split <;> exact trivial
  | _ => cases h

theorem scan_scanned (source : String) : ∀ t ∈ (scan source).tokens, t.Scanned := by
  intro t ht
  rw [Ascent.scan_tokens] at ht
  rcases List.mem_append.mp ht with ht | ht
  · obtain ⟨p, -, hp⟩ := List.mem_filterMap.mp ht
    exact token?_scanned hp
  · rw [List.mem_singleton.mp ht]
    exact ⟨⟨"", rfl⟩, trivial⟩

theorem isStatement_of_read {f : FrontEnd} {source : String} (h : (f.read source).diagnostics = []) :
    ∀ n ∈ (f.read source).statements, n.IsStatement (scan source).tokens := by
  obtain ⟨ps, ⟨e, -, hderives⟩, hns⟩ := Reading.exists_phrases h
  rw [hns]
  exact Node.isStatement_block (hderives.shapes (scan_scanned source) (List.Subset.refl _))

end Lox
