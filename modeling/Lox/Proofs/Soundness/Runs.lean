import Lox.Proofs.Scoping.Faults
import Lox.Proofs.Scoping.Programs
import Lox.Proofs.Soundness.Shapes

namespace Lox

open Run

def Scope.Primitive (scope : Scope) : Prop :=
  ∀ p ∈ scope, p.2.Primitive

structure Env.Primitive (env : Env) : Prop where
  locals : ∀ scope ∈ env.locals, scope.Primitive
  globals : env.globals.Primitive

section

variable {scope : Scope} {env : Env} {x : Name} {v : Value}

theorem Scope.Primitive.set (h : scope.Primitive) (hv : v.Primitive) (x : Name) : Scope.Primitive (scope.set x v) := by
  induction scope with
  | nil => exact List.forall_mem_singleton.mpr hv
  | cons p scope ih =>
    obtain ⟨k, w⟩ := p
    obtain ⟨hw, hscope⟩ := List.forall_mem_cons.mp h
    unfold Entries.set
    split
    · exact List.forall_mem_cons.mpr ⟨hv, hscope⟩
    · exact List.forall_mem_cons.mpr ⟨hw, ih hscope⟩

theorem Scope.Primitive.get? (h : scope.Primitive) (hx : scope.get? x = some v) : v.Primitive := by
  induction scope with
  | nil => cases hx
  | cons p scope ih =>
    obtain ⟨k, w⟩ := p
    obtain ⟨hw, hscope⟩ := List.forall_mem_cons.mp h
    unfold Entries.get? at hx
    split at hx
    · cases hx
      exact hw
    · exact ih hscope hx

namespace Env.Primitive

theorem start {globals : Scope} (h : globals.Primitive) : (Env.start globals).Primitive :=
  ⟨nofun, h⟩

theorem enter (h : env.Primitive) : env.enter.Primitive :=
  ⟨List.forall_mem_cons.mpr ⟨nofun, h.locals⟩, h.globals⟩

theorem leave (h : env.Primitive) : env.leave.Primitive :=
  ⟨fun scope hm => h.locals scope (List.mem_of_mem_tail hm), h.globals⟩

theorem define (h : env.Primitive) (hv : v.Primitive) (x : Name) : (env.define x v).Primitive := by
  obtain ⟨locals, globals⟩ := env
  cases locals with
  | nil => exact ⟨nofun, h.globals.set hv x⟩
  | cons scope scopes =>
    obtain ⟨hscope, hscopes⟩ := List.forall_mem_cons.mp h.locals
    exact ⟨List.forall_mem_cons.mpr ⟨hscope.set hv x, hscopes⟩, h.globals⟩

theorem get? (h : env.Primitive) (hx : env.get? x = some v) : v.Primitive := by
  rcases Option.or_eq_some_iff.mp hx with hx | ⟨-, hx⟩
  · obtain ⟨scope, hm, hx⟩ := List.exists_of_findSome?_eq_some hx
    exact (h.locals scope hm).get? hx
  · exact h.globals.get? hx

theorem assignFirst? {scopes scopes' : List Scope} (h : ∀ scope ∈ scopes, scope.Primitive) (hv : v.Primitive)
    (hx : Env.assignFirst? x v scopes = some scopes') : ∀ scope ∈ scopes', scope.Primitive := by
  induction scopes generalizing scopes' with
  | nil => cases hx
  | cons scope scopes ih =>
    obtain ⟨hscope, hscopes⟩ := List.forall_mem_cons.mp h
    unfold Env.assignFirst? at hx
    split at hx
    · cases hx
      exact List.forall_mem_cons.mpr ⟨hscope.set hv x, hscopes⟩
    · obtain ⟨scopes'', hrest, rfl⟩ := Option.map_eq_some_iff.mp hx
      exact List.forall_mem_cons.mpr ⟨hscope, ih hscopes hrest⟩

theorem assign? {env' : Env} (h : env.Primitive) (hv : v.Primitive) (hx : env.assign? x v = some env') :
    env'.Primitive := by
  unfold Env.assign? at hx
  split at hx
  · rename_i hlocals
    cases hx
    exact ⟨assignFirst? h.locals hv hlocals, h.globals⟩
  · split at hx
    · cases hx
      exact ⟨h.locals, h.globals.set hv x⟩
    · cases hx

end Env.Primitive

end

theorem Token.name?_of_isIdentifier {t : Token} (h : t.IsIdentifier) : ∃ name, t.name? = some name := by
  obtain ⟨w, hw⟩ := h.lexeme
  exact ⟨.text w, by rw [Token.name?, hw, Name.ofValue?]⟩

namespace Operation

variable {o : Token} {a b v : Value}

theorem unary_primitive (h : unary o a = .ok v) : v.Primitive := by
  unfold unary negate at h
  split at h
  · split at h <;> cases h
    exact trivial
  · cases h
    exact trivial
  · cases h

theorem onNumbers_primitive {f : Float → Float → Value} (hf : ∀ x y, (f x y).Primitive)
    (h : onNumbers f a b = .ok v) : v.Primitive := by
  unfold onNumbers at h
  split at h <;> cases h
  exact hf _ _

theorem add_primitive (h : add a b = .ok v) : v.Primitive := by
  unfold add at h
  split at h <;> cases h <;> exact trivial

theorem binary_primitive (h : binary o a b = .ok v) : v.Primitive := by
  unfold binary at h
  split at h
  case h_1 => exact add_primitive h
  case h_9 | h_10 =>
    cases h
    exact trivial
  case h_11 => cases h
  all_goals exact onNumbers_primitive (by intros; trivial) h

theorem unary_fault {f : Fault} (ho : o.kind ∈ unaryKinds) (h : unary o v = .error f) : f = .operandNotNumber := by
  unfold unary negate at h
  split at h
  · split at h <;> cases h
    rfl
  · cases h
  · simp_all [unaryKinds]

theorem binary_fault {f : Fault} (ho : o.kind ∈ binaryKinds) (h : binary o a b = .error f) :
    f = .operandsNotNumbers ∨ f = .operandsNotAddable := by
  have hnumbers : ∀ {g : Float → Float → Value}, onNumbers g a b = .error f → f = .operandsNotNumbers := by
    intro g h
    unfold onNumbers at h
    split at h <;> cases h
    rfl
  unfold binary at h
  split at h
  case h_1 =>
    unfold add at h
    split at h <;> cases h
    exact .inr rfl
  case h_9 | h_10 => cases h
  case h_11 => simp_all [binaryKinds]
  all_goals exact .inl (hnumbers h)

end Operation

namespace Run

variable {α β : Type}

structure Safe (P : α → Prop) (y : Run α) : Prop where
  ok : ∀ {m a m'}, m.env.Primitive → y m = .ok a m' → P a ∧ m'.env.Primitive
  error : ∀ {m e m'}, m.env.Primitive → y m = .error e m' → (∀ x, e ≠ .misfit x) ∧ m'.env.Primitive

namespace Safe

variable {P : α → Prop} {Q : β → Prop} {t : Token} {v : Value}

theorem pure {a : α} (h : P a) : Safe P (pure a) := by
  refine ⟨fun hm hy => ?_, fun hm hy => ?_⟩
  · cases hy
    exact ⟨h, hm⟩
  · cases hy

theorem throw {e : Stop} (h : ∀ x, e ≠ .misfit x) : Safe P (throw e) := by
  refine ⟨fun hm hy => ?_, fun hm hy => ?_⟩
  · cases hy
  · cases hy
    exact ⟨h, hm⟩

theorem bind {y : Run α} {f : α → Run β} (hy : Safe P y) (hf : ∀ a, P a → Safe Q (f a)) : Safe Q (y >>= f) := by
  refine ⟨fun hm h => ?_, fun hm h => ?_⟩
  · obtain ⟨a, m₁, ha, hb⟩ := bind_eq_ok.mp h
    obtain ⟨hpa, hm₁⟩ := hy.ok hm ha
    exact (hf a hpa).ok hm₁ hb
  · rcases bind_eq_error.mp h with he | ⟨a, m₁, ha, he⟩
    · exact hy.error hm he
    · obtain ⟨hpa, hm₁⟩ := hy.ok hm ha
      exact (hf a hpa).error hm₁ he

theorem note (s : Settings) (level : Nat) (text : Unit → String) : Safe (fun _ => True) (note s level text) := by
  unfold Run.note
  refine ⟨fun hm hy => ?_, fun hm hy => ?_⟩
  · split at hy <;> cases hy <;> exact ⟨trivial, hm⟩
  · split at hy <;> cases hy

theorem print (line : String) : Safe (fun _ => True) (print line) := by
  refine ⟨fun hm hy => ?_, fun hm hy => ?_⟩
  · cases hy
    exact ⟨trivial, hm⟩
  · cases hy

theorem ofExcept {r : Except Fault Value} (h : ∀ v, r = .ok v → v.Primitive) :
    Safe Value.Primitive (ofExcept (Operation.at_ t r)) := by
  cases r with
  | ok v => exact pure (h v rfl)
  | error f => exact throw nofun

theorem lookup (ht : t.IsIdentifier) : Safe Value.Primitive (lookup t) := by
  obtain ⟨name, hname⟩ := Token.name?_of_isIdentifier ht
  refine ⟨fun {m a m'} hm hy => ?_, fun {m e m'} hm hy => ?_⟩
  · rw [lookup_apply hname] at hy
    split at hy <;> cases hy
    exact ⟨hm.get? ‹_›, hm⟩
  · rw [lookup_apply hname] at hy
    split at hy <;> cases hy
    exact ⟨nofun, hm⟩

theorem assign (ht : t.IsIdentifier) (hv : v.Primitive) : Safe (fun _ => True) (assign t v) := by
  obtain ⟨name, hname⟩ := Token.name?_of_isIdentifier ht
  refine ⟨fun {m a m'} hm hy => ?_, fun {m e m'} hm hy => ?_⟩
  · rw [assign_apply hname] at hy
    split at hy <;> cases hy
    exact ⟨trivial, hm.assign? hv ‹_›⟩
  · rw [assign_apply hname] at hy
    split at hy <;> cases hy
    exact ⟨nofun, hm⟩

theorem define (ht : t.IsIdentifier) (hv : v.Primitive) : Safe (fun _ => True) (define t v) := by
  obtain ⟨name, hname⟩ := Token.name?_of_isIdentifier ht
  refine ⟨fun {m a m'} hm hy => ?_, fun {m e m'} hm hy => ?_⟩
  · rw [define_apply hname] at hy
    cases hy
    exact ⟨trivial, hm.define hv name⟩
  · rw [define_apply hname] at hy
    cases hy

theorem inScope {part : Run Unit} (h : Safe (fun _ => True) part) : Safe (fun _ => True) (inScope part) := by
  unfold Run.inScope
  refine ⟨fun hm hy => ?_, fun hm hy => ?_⟩
  · split at hy <;> cases hy
    exact ⟨trivial, (h.ok hm.enter ‹_›).2.leave⟩
  · split at hy <;> cases hy
    obtain ⟨he, hm'⟩ := h.error hm.enter ‹_›
    exact ⟨he, hm'.leave⟩

theorem repeatWhile {condition : Run Bool} {body : Run Unit} (hc : Safe (fun _ => True) condition)
    (hb : Safe (fun _ => True) body) (turns count : Nat) :
    Safe (fun _ => True) (repeatWhile condition body turns count) := by
  induction turns generalizing count with
  | zero => exact throw nofun
  | succ turns ih =>
    refine hc.bind fun go _ => ?_
    cases go with
    | false => exact pure trivial
    | true => exact hb.bind fun _ _ => ih (count + 1)

theorem forM {ns : List Node} {f : Node → Run Unit} (h : ∀ n ∈ ns, Safe (fun _ => True) (f n)) :
    Safe (fun _ => True) (ns.forM f) := by
  induction ns with
  | nil => exact pure trivial
  | cons n ns ih =>
    obtain ⟨hn, hns⟩ := List.forall_mem_cons.mp h
    exact hn.bind fun _ _ => ih hns

end Safe

variable {ts : List Token} (s : Settings)

theorem evaluate_safe (limit : Nat) {n : Node} (h : n.IsExpression ts) : Safe Value.Primitive (evaluate s limit n) := by
  induction limit generalizing n with
  | zero => exact .throw nofun
  | succ limit ih =>
    cases h with
    | literal hv _ => exact .pure hv
    | grouping he => exact ih he
    | unary _ _ he => exact (ih he).bind fun v _ => .ofExcept fun w hw => Operation.unary_primitive hw
    | binary ha _ _ hb =>
      exact (ih ha).bind fun left _ => (ih hb).bind fun right _ => .ofExcept fun w hw => Operation.binary_primitive hw
    | logical ha _ _ hb =>
      refine (ih ha).bind fun left hleft => ?_
      change Safe Value.Primitive (if logicalShort _ left then Pure.pure left else evaluate s limit _)
      split
      · exact .pure hleft
      · exact ih hb
    | «variable» _ ht => exact .lookup ht
    | assign _ ht he =>
      exact (ih he).bind fun v hv => (Safe.assign ht hv).bind fun _ _ => (Safe.note s 2 _).bind fun _ _ => .pure hv

theorem execute_safe (limit : Nat) {n : Node} (h : n.IsStatement ts) :
    Safe (fun _ => True) (execute s limit n) := by
  induction limit generalizing n with
  | zero => exact .throw nofun
  | succ limit ih =>
    have hdeclare : ∀ {t : Token} {v : Value}, t.IsIdentifier → v.Primitive → Safe (fun _ => True) (do
        define t v
        note s 2 fun _ => "declare " ++ t.spelling ++ " = " ++ v.printed) :=
      fun ht hv => (Safe.define ht hv).bind fun _ _ => .note s 2 _
    cases h with
    | expression he => exact (evaluate_safe s limit he).bind fun _ _ => .pure trivial
    | print he => exact (evaluate_safe s limit he).bind fun v _ => .print v.printed
    | varAbsent _ ht => exact hdeclare ht trivial
    | varInitialized _ ht he =>
      -- the tree of an expression is never the mark that there is none
      rw [execute, if_neg he.ne_absent]
      exact (evaluate_safe s limit he).bind fun v hv => hdeclare ht hv
    | block hns =>
      rw [execute_block]
      refine .inScope (Safe.bind (P := fun _ => True) ?_ fun _ _ => (Safe.note s 3 _).bind fun _ _ => ?_)
      · refine ⟨fun hm hy => ?_, fun hm hy => ?_⟩ <;> cases hy
        exact ⟨trivial, hm⟩
      · exact .forM fun n hn => ih (hns n hn)
    | branchOnly hc ha =>
      refine (evaluate_safe s limit hc).bind fun v _ => (Safe.note s 3 _).bind fun _ _ => ?_
      split
      · exact ih ha
      · exact .pure trivial
    | branch hc ha hb =>
      refine (evaluate_safe s limit hc).bind fun v _ => (Safe.note s 3 _).bind fun _ _ => ?_
      split
      · exact ih ha
      · rw [if_neg hb.ne_absent]
        exact ih hb
    | loop hc hb =>
      have hcondition : Safe (fun _ => True) (Value.truthy <$> evaluate s limit _) :=
        (evaluate_safe s limit hc).bind fun v _ => .pure trivial
      exact (Safe.repeatWhile hcondition (ih hb) s.turns 0).bind fun _ _ => .note s 3 _

theorem interpret_safe {ns : List Node} (h : ∀ n ∈ ns, n.IsStatement ts) {m : Machine} (hm : m.env.Primitive) :
    (∀ x, (interpret s ns m).1 ≠ .misfit x) ∧ (interpret s ns m).2.env.Primitive := by
  induction ns generalizing m with
  | nil => exact ⟨fun _ he => (by cases he), hm⟩
  | cons n ns ih =>
    obtain ⟨hn, hns⟩ := List.forall_mem_cons.mp h
    have hsafe := execute_safe s s.depth hn
    have hfailed : ∀ x {m : Machine}, m.env.Primitive →
        (∀ y, (failed s x m).1 ≠ .misfit y) ∧ (failed s x m).2.env.Primitive := by
      intro x m hm
      rw [failed_fst, failed_env]
      exact ⟨fun _ he => (by cases he), hm⟩
    unfold interpret
    cases hr : execute s s.depth n m with
    | ok u m₁ => exact ih hns (hsafe.ok hm hr).2
    | error e m₁ =>
      obtain ⟨he, hm₁⟩ := hsafe.error hm hr
      cases e with
      | fault x => exact hfailed x hm₁
      | tooDeep => exact hfailed _ hm₁
      | misfit x => exact absurd rfl (he x)
      | outOfTurns => exact ⟨fun _ he => (by cases he), hm₁⟩

end Run

/-- The part that a task has to do with is a tree of its kind. -/
def Task.Shaped (ts : List Token) : Task → Prop
  | .execute n => n.IsStatement ts
  | .evaluate n => n.IsExpression ts

/-- The operator or the name of a task is the token of an error, with a message for it. -/
inductive Task.Blames (ts : List Token) : Task → RuntimeError → Prop
  | unary {o e x} : o ∈ ts → x.token = o → x.message = "Operand must be a number." →
      Blames ts (.evaluate (.unary (.token o) e)) x
  | binary {a o b x} : o ∈ ts → x.token = o →
      x.message = "Operands must be numbers." ∨ x.message = "Operands must be two numbers or two strings." →
      Blames ts (.evaluate (.binary a (.token o) b)) x
  | read {t x name} : t ∈ ts → x.token = t → t.kind = .identifier → t.lexeme = .text name →
      x.message = "Undefined variable '" ++ name ++ "'." → Blames ts (.evaluate (.variable (.token t))) x
  | assigned {t e x name} : t ∈ ts → x.token = t → t.kind = .identifier → t.lexeme = .text name →
      x.message = "Undefined variable '" ++ name ++ "'." → Blames ts (.evaluate (.assign (.token t) e)) x

section

variable {s : Settings} {limit : Nat} {ts : List Token} {program : List Node} {start : Machine} {m m' : Machine}

theorem Turns.primitive {c b : Node} (h : Turns s limit c b m m') (hc : c.IsExpression ts) (hb : b.IsStatement ts)
    (hm : m.env.Primitive) : m'.env.Primitive := by
  induction h with
  | none => exact hm
  | more _ hv _ hx ih => exact ((execute_safe s limit hb).ok ((evaluate_safe s limit hc).ok ih hv).2 hx).2

theorem Calls.shaped {t t' : Task} (h : Calls s limit t m t' m') (ht : t.Shaped ts) (hm : m.env.Primitive) :
    t'.Shaped ts ∧ m'.env.Primitive := by
  have hnoted : ∀ {c v m₁ m₂}, Node.IsExpression ts c → evaluate s limit c m = .ok v m₁ →
      note s 3 (fun _ => conditionNote v) m₁ = .ok () m₂ → m₂.env.Primitive := fun hc hv hn =>
    ((Safe.note s 3 _).ok ((evaluate_safe s limit hc).ok hm hv).2 hn).2
  cases h with
  | expression | print | condition | grouping | unary | binaryLeft | logicalLeft | assigned =>
    cases ht <;> exact ⟨‹_›, hm⟩
  | initializer hne =>
    cases ht with
    | varAbsent => exact absurd rfl hne
    | varInitialized _ _ he => exact ⟨he, hm⟩
  | thenBranch hv hn =>
    cases ht with
    | branchOnly hc ha => exact ⟨ha, hnoted hc hv hn⟩
    | branch hc ha _ => exact ⟨ha, hnoted hc hv hn⟩
  | elseBranch hv hn _ hne =>
    cases ht with
    | branchOnly => exact absurd rfl hne
    | branch hc _ hb => exact ⟨hb, hnoted hc hv hn⟩
  | loopCondition hturns =>
    cases ht with
    | loop hc hb => exact ⟨hc, hturns.primitive hc hb hm⟩
  | loopBody hturns hv =>
    cases ht with
    | loop hc hb => exact ⟨hb, ((evaluate_safe s limit hc).ok (hturns.primitive hc hb hm) hv).2⟩
  | binaryRight hv =>
    cases ht with
    | binary ha _ _ hb => exact ⟨hb, ((evaluate_safe s limit ha).ok hm hv).2⟩
  | logicalRight hv =>
    cases ht with
    | logical ha _ _ hb => exact ⟨hb, ((evaluate_safe s limit ha).ok hm hv).2⟩

theorem Reached.shaped {p : Site} {task : Task} (h : Reached s program start p limit task m)
    (hp : ∀ n ∈ program, n.IsStatement ts) (hs : start.env.Primitive) : task.Shaped ts ∧ m.env.Primitive := by
  have hbefore : ∀ {limit before n behind m m₁}, (∀ n' ∈ before ++ n :: behind, Node.IsStatement ts n') →
      m.env.Primitive → before.forM (execute s limit) m = .ok () m₁ → n.IsStatement ts ∧ m₁.env.Primitive := by
    intro limit before n behind m m₁ hns hm hx
    refine ⟨hns n (by simp), ?_⟩
    exact ((Safe.forM fun n' hn' => execute_safe s limit (hns n' (by simp [hn']))).ok hm hx).2
  induction h with
  | top heq hx =>
    subst heq
    exact hbefore hp hs hx
  | block _ hx ih =>
    obtain ⟨ht, hm⟩ := ih
    -- what runs in the block before the task begins with the scopes that the block enters
    obtain ⟨machine, m₂, hget, hx⟩ := bind_eq_ok.mp hx
    cases hget
    obtain ⟨⟨⟩, m₃, hnote, hx⟩ := bind_eq_ok.mp hx
    have hm₃ := ((Safe.note s 3 _).ok hm.enter hnote).2
    exact hbefore (Node.isStatement_block ht) hm₃ hx
  | call _ hc ih => exact hc.shaped ih.1 ih.2

theorem message_undefined {t : Token} {name : String} (h : t.lexeme = .text name) :
    RuntimeError.message ⟨t, .undefinedVariable t.spelling⟩ = "Undefined variable '" ++ name ++ "'." := by
  have hspelling : t.spelling = name := by rw [Token.spelling, h, Value.described]
  rw [hspelling]
  rfl

theorem Task.Raises.blames {task : Task} {x : RuntimeError} (h : task.Raises s limit m x) (ht : task.Shaped ts) :
    task.Blames ts x := by
  cases h with
  | unary _ hf =>
    cases ht with
    | unary ho hk =>
      obtain rfl := Operation.unary_fault hk hf
      exact .unary ho rfl rfl
  | binary _ _ hf =>
    cases ht with
    | binary _ ho hk _ =>
      refine .binary ho rfl ?_
      rcases Operation.binary_fault hk hf with rfl | rfl
      · exact .inl rfl
      · exact .inr rfl
  | read =>
    cases ht with
    | «variable» ht hi =>
      obtain ⟨name, hname⟩ := hi.lexeme
      exact .read ht rfl hi.kind hname (message_undefined hname)
  | assigned =>
    cases ht with
    | assign ht hi _ =>
      obtain ⟨name, hname⟩ := hi.lexeme
      exact .assigned ht rfl hi.kind hname (message_undefined hname)

end

/-- A program made of some tokens does not go wrong from where it starts. -/
structure Sound (s : Settings) (ts : List Token) (program : List Node) (start : Machine) : Prop where
  ending : (interpret s program start).1 = .outOfTurns ∨
    (∃ n ∈ program, (interpret s program start).1 = .failed ⟨n.firstToken, .nestingTooDeep⟩) ∨
    (interpret s program start).1 = .finished ∨
    ∃ x p limit task m, (interpret s program start).1 = .failed x ∧ Reached s program start p (limit + 1) task m ∧
      task.Raises s limit m x ∧ task.Blames ts x
  kept : (interpret s program start).2.env.Primitive
  reached : ∀ {p limit task m}, Reached s program start p limit task m → task.Shaped ts ∧ m.env.Primitive
  divided : ∀ x y, divide? x y = some (divide x y)

theorem sound_of_statements {s : Settings} {ts : List Token} {program : List Node} {start : Machine}
    (hp : ∀ n ∈ program, n.IsStatement ts) (htidy : ∀ n ∈ program, n.Tidy) (hs : start.env.Primitive) :
    Sound s ts program start := by
  have hreached : ∀ {p limit task m}, Reached s program start p limit task m → task.Shaped ts ∧ m.env.Primitive :=
    fun h => h.shaped hp hs
  obtain ⟨hmisfit, hkept⟩ := interpret_safe s hp hs
  refine ⟨?_, hkept, hreached, divide?_eq_some⟩
  obtain ⟨before, behind, m, heq, hm, -, ⟨hfinished, -⟩ | ⟨n, rest, e, m', rfl, hx, hend⟩⟩ :=
    interpret_stops (s := s) htidy start
  · exact .inr (.inr (.inl hfinished))
  rw [hend] at hmisfit ⊢
  cases e with
  | outOfTurns => exact .inl rfl
  | tooDeep => exact .inr (.inl ⟨n, by simp [heq], rfl⟩)
  | misfit x => exact absurd rfl (hmisfit x)
  | fault x =>
    obtain ⟨p, limit, task, m₁, hr, hraises, -⟩ := (Reached.top heq hm).fault ⟨m', hx⟩
    exact .inr (.inr (.inr ⟨x, p, limit, task, m₁, rfl, hr, hraises, hraises.blames (hreached hr).1⟩))

/-- What either front end reads without diagnostics does not go wrong on globals that hold primitive values. -/
theorem run_sound (f : FrontEnd) (source : String) (hread : (f.read source).diagnostics = []) (s : Settings)
    (globals : Scope) (hglobals : globals.Primitive) (notes : Array Note) :
    Sound s (scan source).tokens (f.read source).statements ⟨.start globals, #[], notes⟩ :=
  sound_of_statements (isStatement_of_read hread) (statements_tidy f source) (.start hglobals)

theorem run_sound_negation :
    let source := "{ var y = x / 0; y = y + 1; } while (x) -\"x\";"
    let globals : Scope := [(.text "x", .number (Number.ofDecimal ['1'] []))]
    let s : Settings := ⟨0, 10, 10⟩
    let start : Machine := ⟨.start globals, #[], #[]⟩
    let program := (FrontEnd.ascent.read source).statements
    (FrontEnd.ascent.read source).diagnostics = [] ∧ globals.Primitive ∧
      Sound s (scan source).tokens program start ∧
      (interpret s program start).1 = .failed ⟨⟨.minus, .text "-", .nil, 1⟩, .operandNotNumber⟩ := by
  intro source globals s start program
  have hread : (FrontEnd.ascent.read source).diagnostics = [] := by decide +kernel
  have hglobals : globals.Primitive := List.forall_mem_singleton.mpr trivial
  exact ⟨hread, hglobals, run_sound .ascent source hread s globals hglobals #[], by decide +kernel⟩

namespace Session

variable {session : Session}

theorem run_primitive (source : String) (h : session.globals.Primitive) :
    (session.run source).2.globals.Primitive := by
  unfold run runReading
  dsimp only
  by_cases hread : (session.frontEnd.read source).diagnostics = []
  · rw [if_pos hread]
    exact (interpret_safe _ (isStatement_of_read hread) (.start h)).2.globals
  · rw [if_neg hread]
    exact h

theorem runs_primitive (sources : List String) (h : session.globals.Primitive) :
    (sources.foldl (fun session source => (session.run source).2) session).globals.Primitive := by
  induction sources generalizing session with
  | nil => exact h
  | cons source sources ih => exact ih (run_primitive source h)

end Session

end Lox
