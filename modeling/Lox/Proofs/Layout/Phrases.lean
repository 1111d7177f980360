import Lox.Proofs.Grammar
import Lox.Proofs.Layout.Lines

namespace Lox

open Ascent (Phrase)

variable (f : Int → Int)

namespace Ascent.Phrase

mutual

def reline : Phrase → Phrase
  | .absent => .absent
  | .literal v => .literal v
  | .variable t => .variable (t.reline f)
  | .grouping e => .grouping e.reline
  | .unary o e => .unary (o.reline f) e.reline
  | .joined l a o b => .joined l a.reline (o.reline f) b.reline
  | .assign t e v => .assign t.reline (e.reline f) v.reline
  | .expression e => .expression e.reline
  | .print e => .print e.reline
  | .var n e => .var (n.reline f) e.reline
  | .block ss => .block (relineAll ss)
  | .branch c a b => .branch c.reline a.reline b.reline
  | .loop c b => .loop c.reline b.reline
  | .forLoop i c e b => .forLoop i.reline c.reline e.reline b.reline

def relineAll : List Phrase → List Phrase
  | [] => []
  | p :: ps => p.reline :: relineAll ps

end

@[simp] theorem isAbsent_reline (p : Phrase) : (p.reline f).isAbsent = p.isAbsent := by
  cases p <;> rfl

@[simp] theorem isJoined_reline (l : Level) (p : Phrase) : (p.reline f).isJoined l = p.isJoined l := by
  cases p <;> rfl

theorem reline_ne_variable {p : Phrase} (h : ∀ n, p ≠ .variable n) (n : Token) : p.reline f ≠ .variable n := by
  cases p <;> simp_all [reline]

mutual

theorem node_reline : ∀ p : Phrase, (p.reline f).node = p.node.reline f
  | .absent | .literal _ | .variable _ => rfl
  | .grouping e => congrArg Node.grouping (node_reline e)
  | .unary _ e => congrArg (Node.unary _) (node_reline e)
  | .joined l a o b => by simp only [reline, node, node_reline a, node_reline b, fold_reline]
  | .assign t e v => by
    have hv := node_reline v
    cases t with
    | «variable» n => simp only [reline, node, Node.reline, hv]
    | _ => exact hv
  | .expression e => congrArg Node.expression (node_reline e)
  | .print e => congrArg Node.print (node_reline e)
  | .var _ e => congrArg (Node.var _) (node_reline e)
  | .block ss => congrArg Node.block (nodes_reline ss)
  | .branch c a b => by simp only [reline, node, Node.reline, node_reline c, node_reline a, node_reline b]
  | .loop c b => by simp only [reline, node, Node.reline, node_reline c, node_reline b]
  | .forLoop i c e b => by
    have hclause (p : Phrase) (hp : (p.reline f).node = p.node.reline f) :
        (if (p.reline f).isAbsent then none else some (p.reline f).node) =
          (if p.isAbsent then none else some p.node).map (·.reline f) := by
      rw [isAbsent_reline, hp]
      split <;> rfl
    rw [reline, node, node, Node.forLoop_reline]
    dsimp only
    rw [hclause i (node_reline i), hclause c (node_reline c), hclause e (node_reline e), node_reline b]

theorem nodes_reline : ∀ ps : List Phrase, nodes (relineAll f ps) = Node.relineAll f (nodes ps)
  | [] => rfl
  | p :: ps => by simp only [relineAll, nodes, Node.relineAll, node_reline p, nodes_reline ps]

end

end Ascent.Phrase

namespace Grammar

variable {f} {lenient : Bool}

theorem next?_reline (ts : List Token) : next? (ts.map (·.reline f)) = next? ts := by
  cases ts <;> rfl

theorem Derives.reline {s : Symbol} {ts rest : List Token} {p : Phrase} (h : Derives lenient s ts rest p) :
    Derives lenient s (ts.map (·.reline f)) (rest.map (·.reline f)) (p.reline f) := by
  induction h with
  | noDeclaration => exact .noDeclaration
  | moreDeclarations _ _ ih ih' => exact .moreDeclarations ih ih'
  | varDeclared _ ih => exact .varDeclared ih
  | stated _ ih => exact .stated ih
  | varAbsent hv hn hs => exact .varAbsent hv hn hs
  | varInitialized hv hn he _ hs ih => exact .varInitialized hv hn he ih hs
  | expressionStatement _ hs ih => exact .expressionStatement ih hs
  | expressed _ ih => exact .expressed ih
  | print hk _ hs ih => exact .print hk ih hs
  | block hl _ hr ih => exact .block hl ih hr
  | ifOnly hk hl _ hr _ hnext ih ih' => exact .ifOnly hk hl ih hr ih' (by rwa [next?_reline])
  | ifElse hk hl _ hr _ he _ ih ih' ih'' => exact .ifElse hk hl ih hr ih' he ih''
  | loop hk hl _ hr _ ih ih' => exact .loop hk hl ih hr ih'
  | forLoop hk hl _ _ hs _ hr _ ihi ihc ihe ihb => exact .forLoop hk hl ihi ihc hs ihe hr ihb
  | initializerAbsent hs => exact .initializerAbsent hs
  | initializerVar _ ih => exact .initializerVar ih
  | initializerExpression _ ih => exact .initializerExpression ih
  | clauseAbsent => exact .clauseAbsent
  | clausePresent _ ih => exact .clausePresent ih
  | assign hn he _ ih => exact .assign hn he ih
  | misassign hl _ hne he _ ih ih' => exact .misassign hl ih (Phrase.reline_ne_variable f hne) he ih'
  | joinedAll _ ih => exact .joinedAll ih
  | joined _ ho _ ih ih' => exact .joined ih ho ih'
  | single _ ih => exact .single ih
  | tightest _ ih => exact .tightest ih
  | unary ho _ ih => exact .unary ho ih
  | primary _ ih => exact .primary ih
  | literal ht => exact .literal ht
  | trueWord ht => exact .trueWord ht
  | falseWord ht => exact .falseWord ht
  | nilWord ht => exact .nilWord ht
  | name ht => exact .name ht
  | grouping hl _ hr ih => exact .grouping hl ih hr

theorem Program.reline {ts : List Token} {ps : List Phrase} (h : Program lenient ts ps) :
    Program lenient (ts.map (·.reline f)) (Phrase.relineAll f ps) := by
  obtain ⟨e, he, h⟩ := h
  exact ⟨e.reline f, he, h.reline⟩

end Grammar

end Lox
