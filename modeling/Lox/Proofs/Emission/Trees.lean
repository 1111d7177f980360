import Lox.Node.Json
import Lox.Proofs.Emission.Texts
import Lox.Proofs.Soundness.Shapes

namespace Lox

def Token.number? (t : Token) : Option Float :=
  match t.literal with
  | .number x => some x
  | _ => none

/-- The finite numbers that tokens write are worth the same when their JSON texts are read. -/
def Rereadable (ts : List Token) : Prop :=
  ∀ x ∈ ts.filterMap Token.number?, Number.isFinite x = true → Json.reread? x = some x

instance (ts : List Token) : Decidable (Rereadable ts) :=
  inferInstanceAs (Decidable (∀ x ∈ ts.filterMap Token.number?, Number.isFinite x = true → Json.reread? x = some x))

class Value.Hereditary (P : Value → Prop) : Prop where
  nil : P .nil
  whole (i) : P (.whole i)
  text (s) : P (.text s)
  list {vs} : (∀ v ∈ vs, P v) → P (.list vs)
  record {fs} : (Entries.keys fs).Nodup → (∀ p ∈ fs, P p.2) → P (.record fs)

namespace Value

instance : Hereditary Rereads :=
  ⟨.nil, .whole, .text, .list, .record⟩

theorem Hereditary.nodeRecord {P : Value → Prop} [Hereditary P] {kind : String} {parts : Entries String Value}
    (hkeys : ("type" :: parts.keys).Nodup) (h : ∀ p ∈ parts, P p.2) : P (nodeRecord kind parts) :=
  record hkeys (List.forall_mem_cons.mpr ⟨text kind, h⟩)

end Value

namespace Node

def KeptAs (P : Value → Prop) (n : Node) : Prop :=
  ∃ v, n.toJson = .ok v ∧ P v ∧ ∀ limit, n.depth ≤ limit → ofJson limit v = .ok n

abbrev Kept (n : Node) : Prop :=
  KeptAs Value.Rereads n

theorem depth_pos (n : Node) : 0 < n.depth := by
  cases n <;> simp only [depth] <;> omega

section

open Value (Hereditary)

variable {P : Value → Prop}

theorem keptAs_of_read {n : Node} {v : Value} (hv : n.toJson = .ok v) (hr : P v)
    (h : ∀ limit, n.depth ≤ limit + 1 → ofJson (limit + 1) v = .ok n) : KeptAs P n := by
  refine ⟨v, hv, hr, fun limit hlimit => ?_⟩
  obtain ⟨limit, rfl⟩ := Nat.exists_eq_add_one.mpr (Nat.lt_of_lt_of_le n.depth_pos hlimit)
  exact h limit hlimit

namespace KeptAs

theorem all {ns : List Node} (h : ∀ n ∈ ns, KeptAs P n) : ∃ vs, toJsonAll ns = .ok vs ∧ (∀ v ∈ vs, P v) ∧
    ∀ limit, depthAll ns ≤ limit → vs.mapM (ofJson limit) = .ok ns := by
  induction ns with
  | nil => exact ⟨[], rfl, nofun, fun _ _ => rfl⟩
  | cons n ns ih =>
    obtain ⟨⟨v, hv, hvr, hvd⟩, hns⟩ := List.forall_mem_cons.mp h
    obtain ⟨vs, hvs, hvsr, hvsd⟩ := ih hns
    refine ⟨v :: vs, ?_, List.forall_mem_cons.mpr ⟨hvr, hvsr⟩, fun limit hlimit => ?_⟩
    · change (do return (← n.toJson) :: (← toJsonAll ns)) = _
      rw [hv, hvs]
      rfl
    · rw [depthAll, Nat.max_le] at hlimit
      rw [List.mapM_cons, hvd limit hlimit.1, hvsd limit hlimit.2]
      rfl

variable [Hereditary P]

section

variable {a b c : Node} (kind name name' name'' : String)

theorem of_one (ha : KeptAs P a) (build : Node → Node) (hdepth : (build a).depth = 1 + a.depth)
    (hkeys : ["type", name].Nodup)
    (hjson : (build a).toJson = do
      let u ← a.toJson
      return nodeRecord kind [(name, u)])
    (hread : ∀ limit u, ofJson (limit + 1) (nodeRecord kind [(name, u)]) = build <$> ofJson limit u) :
    KeptAs P (build a) := by
  obtain ⟨u, hu, hur, hud⟩ := ha
  rw [hu] at hjson
  refine keptAs_of_read hjson (Hereditary.nodeRecord hkeys (by simp [hur])) fun limit hlimit => ?_
  rw [hread, hud limit (by omega)]
  rfl

theorem of_two (ha : KeptAs P a) (hb : KeptAs P b) (build : Node → Node → Node)
    (hdepth : (build a b).depth = 1 + max a.depth b.depth) (hkeys : ["type", name, name'].Nodup)
    (hjson : (build a b).toJson = do
      let u ← a.toJson
      let v ← b.toJson
      return nodeRecord kind [(name, u), (name', v)])
    (hread : ∀ limit u v, ofJson (limit + 1) (nodeRecord kind [(name, u), (name', v)]) = do
      return build (← ofJson limit u) (← ofJson limit v)) : KeptAs P (build a b) := by
  obtain ⟨u, hu, hur, hud⟩ := ha
  obtain ⟨v, hv, hvr, hvd⟩ := hb
  rw [hu, hv] at hjson
  refine keptAs_of_read hjson (Hereditary.nodeRecord hkeys (by simp [hur, hvr])) fun limit hlimit => ?_
  rw [hread, hud limit (by omega), hvd limit (by omega)]
  rfl

theorem of_three (ha : KeptAs P a) (hb : KeptAs P b) (hc : KeptAs P c) (build : Node → Node → Node → Node)
    (hdepth : (build a b c).depth = 1 + max a.depth (max b.depth c.depth)) (hkeys : ["type", name, name', name''].Nodup)
    (hjson : (build a b c).toJson = do
      let u ← a.toJson
      let v ← b.toJson
      let w ← c.toJson
      return nodeRecord kind [(name, u), (name', v), (name'', w)])
    (hread : ∀ limit u v w, ofJson (limit + 1) (nodeRecord kind [(name, u), (name', v), (name'', w)]) = do
      return build (← ofJson limit u) (← ofJson limit v) (← ofJson limit w)) : KeptAs P (build a b c) := by
  obtain ⟨u, hu, hur, hud⟩ := ha
  obtain ⟨v, hv, hvr, hvd⟩ := hb
  obtain ⟨w, hw, hwr, hwd⟩ := hc
  rw [hu, hv, hw] at hjson
  refine keptAs_of_read hjson (Hereditary.nodeRecord hkeys (by simp [hur, hvr, hwr])) fun limit hlimit => ?_
  rw [hread, hud limit (by omega), hvd limit (by omega), hwd limit (by omega)]
  rfl

end

variable {a b c : Node}

theorem absent : KeptAs P .absent :=
  keptAs_of_read rfl Hereditary.nil fun _ _ => rfl

theorem token {t : Token} (hlexeme : P t.lexeme) (hliteral : P t.literal) : KeptAs P (.token t) := by
  have hkind : kindOfJson (.text t.kind.name) = .ok t.kind := by
    simp [kindOfJson]
  refine keptAs_of_read rfl (Hereditary.record (by simp [Entries.keys]) ?_) fun limit _ => ?_
  · simp only [List.forall_mem_cons, List.not_mem_nil, false_imp_iff, implies_true, and_true]
    exact ⟨Hereditary.text _, Hereditary.text _, hlexeme, hliteral, Hereditary.whole _⟩
  · change Except.map Node.token (do return ⟨← kindOfJson (.text t.kind.name), t.lexeme, t.literal, t.line⟩) = _
    rw [hkind]
    rfl

theorem literal {v : Value} (hv : v.Primitive) (hr : P v) : KeptAs P (.literal v) := by
  have hwritten : v.toJson = .ok v := by
    cases v <;> first | rfl | cases hv
  have hread : literalOfJson v = .ok v := by
    cases v <;> first | rfl | cases hv
  have hjson : (Node.literal v).toJson = .ok (nodeRecord "Literal" [("value", v)]) := by
    change (do return nodeRecord "Literal" [("value", ← v.toJson)]) = _
    rw [hwritten]
    rfl
  refine keptAs_of_read hjson (Hereditary.nodeRecord (by simp [Entries.keys]) (by simp [hr])) fun limit _ => ?_
  change (literalOfJson v).map Node.literal = _
  rw [hread]
  rfl

theorem grouping (ha : KeptAs P a) : KeptAs P (.grouping a) :=
  ha.of_one "Grouping" "expression" .grouping rfl (by decide) rfl fun _ _ => rfl

theorem name (ha : KeptAs P a) : KeptAs P (.variable a) :=
  ha.of_one "Variable" "name" .variable rfl (by decide) rfl fun _ _ => rfl

theorem expression (ha : KeptAs P a) : KeptAs P (.expression a) :=
  ha.of_one "Expression" "expression" .expression rfl (by decide) rfl fun _ _ => rfl

theorem print (ha : KeptAs P a) : KeptAs P (.print a) :=
  ha.of_one "Print" "expression" .print rfl (by decide) rfl fun _ _ => rfl

theorem unary (ha : KeptAs P a) (hb : KeptAs P b) : KeptAs P (.unary a b) :=
  ha.of_two "Unary" "operator" "right" hb .unary rfl (by decide) rfl fun _ _ _ => rfl

theorem assign (ha : KeptAs P a) (hb : KeptAs P b) : KeptAs P (.assign a b) :=
  ha.of_two "Assign" "name" "value" hb .assign rfl (by decide) rfl fun _ _ _ => rfl

theorem var (ha : KeptAs P a) (hb : KeptAs P b) : KeptAs P (.var a b) :=
  ha.of_two "Var" "name" "initializer" hb .var rfl (by decide) rfl fun _ _ _ => rfl

theorem loop (ha : KeptAs P a) (hb : KeptAs P b) : KeptAs P (.loop a b) :=
  ha.of_two "While" "condition" "body" hb .loop rfl (by decide) rfl fun _ _ _ => rfl

theorem binary (ha : KeptAs P a) (hb : KeptAs P b) (hc : KeptAs P c) : KeptAs P (.binary a b c) :=
  ha.of_three "Binary" "left" "operator" "right" hb hc .binary rfl (by decide) rfl fun _ _ _ _ => rfl

theorem logical (ha : KeptAs P a) (hb : KeptAs P b) (hc : KeptAs P c) : KeptAs P (.logical a b c) :=
  ha.of_three "Logical" "left" "operator" "right" hb hc .logical rfl (by decide) rfl fun _ _ _ _ => rfl

theorem branch (ha : KeptAs P a) (hb : KeptAs P b) (hc : KeptAs P c) : KeptAs P (.branch a b c) :=
  ha.of_three "If" "condition" "then_branch" "else_branch" hb hc .branch rfl (by decide) rfl fun _ _ _ _ => rfl

theorem block {ns : List Node} (h : ∀ n ∈ ns, KeptAs P n) : KeptAs P (.block ns) := by
  obtain ⟨vs, hvs, hvsr, hvsd⟩ := all h
  have hjson : (Node.block ns).toJson = .ok (nodeRecord "Block" [("statements", .list vs)]) := by
    change (do return nodeRecord "Block" [("statements", .list (← toJsonAll ns))]) = _
    rw [hvs]
    rfl
  have hkeys : ("type" :: Entries.keys [("statements", Value.list vs)]).Nodup := by
    simp [Entries.keys]
  have hr : P (nodeRecord "Block" [("statements", .list vs)]) :=
    Hereditary.nodeRecord hkeys (List.forall_mem_singleton.mpr (Hereditary.list hvsr))
  refine keptAs_of_read hjson hr fun limit hlimit => ?_
  rw [depth] at hlimit
  change (do return Node.block (← vs.mapM (ofJson limit))) = _
  rw [hvsd limit (by omega)]
  rfl

end KeptAs

end

variable {ts : List Token} (hlexemes : ∀ t ∈ ts, t.Scanned) (hnumbers : Rereadable ts)

include hlexemes hnumbers

theorem rereads_literal {t : Token} (ht : t ∈ ts) : t.literal.Rereads := by
  have hprimitive := (hlexemes t ht).literal
  cases hliteral : t.literal with
  | nil => exact .nil
  | bool b => exact .bool b
  | number x => exact .number (hnumbers x (List.mem_filterMap.mpr ⟨t, ht, by rw [Token.number?, hliteral]⟩))
  | text s => exact .text s
  | whole | list | record =>
    rw [hliteral] at hprimitive
    cases hprimitive

theorem kept_token {t : Token} (ht : t ∈ ts) : Kept (.token t) := by
  obtain ⟨w, hw⟩ := (hlexemes t ht).lexeme
  apply KeptAs.token
  · rw [hw]
    exact .text w
  · exact rereads_literal hlexemes hnumbers ht

theorem kept_of_isExpression {n : Node} (h : IsExpression ts n) : Kept n := by
  have htoken : ∀ {t}, t ∈ ts → Kept (.token t) := kept_token hlexemes hnumbers
  induction h with
  | @literal v hv hnumber =>
    apply KeptAs.literal hv
    cases v with
    | nil => exact .nil
    | bool b => exact .bool b
    | text s => exact .text s
    | number x =>
      obtain ⟨t, ht, hliteral⟩ := hnumber rfl
      rw [← hliteral]
      exact rereads_literal hlexemes hnumbers ht
    | whole | list | record => cases hv
  | grouping _ ih => exact .grouping ih
  | unary ho _ _ ih => exact .unary (htoken ho) ih
  | binary _ ho _ _ ih ih' => exact .binary ih (htoken ho) ih'
  | logical _ ho _ _ ih ih' => exact .logical ih (htoken ho) ih'
  | «variable» ht _ => exact .name (htoken ht)
  | assign ht _ _ ih => exact .assign (htoken ht) ih

theorem kept_of_isStatement {n : Node} (h : IsStatement ts n) : Kept n := by
  have htoken : ∀ {t}, t ∈ ts → Kept (.token t) := kept_token hlexemes hnumbers
  have hexpression : ∀ {e}, IsExpression ts e → Kept e := kept_of_isExpression hlexemes hnumbers
  induction h with
  | expression he => exact .expression (hexpression he)
  | print he => exact .print (hexpression he)
  | varAbsent ht _ => exact .var (htoken ht) .absent
  | varInitialized ht _ he => exact .var (htoken ht) (hexpression he)
  | block _ ih => exact .block ih
  | branchOnly hc _ ih => exact .branch (hexpression hc) ih .absent
  | branch hc _ _ ih ih' => exact .branch (hexpression hc) ih ih'
  | loop hc _ ih => exact .loop (hexpression hc) ih

theorem readProgram_write {ns : List Node} (hns : ∀ n ∈ ns, IsStatement ts n) (hdeep : write ns ≠ .error .tooDeep) :
    ∃ body, write ns = .ok body ∧ (programRecord body).Rereads ∧ readProgram (programRecord body) = .ok ns := by
  obtain ⟨body, hbody, hr, hread⟩ := KeptAs.all fun n hn => kept_of_isStatement hlexemes hnumbers (hns n hn)
  have hdepth : depthAll ns ≤ depthLimit :=
    Nat.not_lt.mp fun hlt => hdeep (if_neg (Nat.not_le.mpr hlt))
  refine ⟨body, ?_, .record (by simp [Entries.keys]) (by simp [Value.Rereads.text, Value.Rereads.list hr]), ?_⟩
  · rw [write, if_pos hdepth, hbody]
  · exact hread depthLimit hdepth

end Node

end Lox
