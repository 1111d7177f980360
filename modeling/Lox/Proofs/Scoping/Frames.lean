import Lox.Cursor
import Lox.Proofs.Evaluation
import Lox.Proofs.Scoping.Keys

namespace Lox

namespace Node

def isVar : Node → Bool
  | .var _ _ => true
  | _ => false

mutual

def Tidy : Node → Prop
  | .block ss => TidyAll ss
  | .branch _ a b => (a.isVar = false ∧ a.Tidy) ∧ b.isVar = false ∧ b.Tidy
  | .loop _ b => b.isVar = false ∧ b.Tidy
  | _ => True

def TidyAll : List Node → Prop
  | [] => True
  | n :: ns => n.Tidy ∧ TidyAll ns

end

theorem tidyAll_iff {ns : List Node} : TidyAll ns ↔ ∀ n ∈ ns, n.Tidy := by
  induction ns with
  | nil => simp [TidyAll]
  | cons n ns ih => simp [TidyAll, ih]

def Plain (n : Node) : Prop :=
  n.isVar = false ∧ n.Tidy

theorem declares?_eq_none {n : Node} (h : n.isVar = false) : n.declares? = none := by
  cases n with
  | var => cases h
  | _ => rfl

end Node

def Stop.ending (n : Node) : Stop → Ending
  | .fault e => .failed e
  | .tooDeep => .failed ⟨n.firstToken, .nestingTooDeep⟩
  | .misfit x => .misfit x
  | .outOfTurns => .outOfTurns

namespace Run

variable {α β : Type}

def Keeps (x : Run α) : Prop :=
  ∀ m, (final (x m)).env.keys = m.env.keys

namespace Keeps

theorem ok {x : Run α} (h : Keeps x) {a : α} {m m' : Machine} (hx : x m = .ok a m') : m'.env.keys = m.env.keys := by
  have hm := h m
  rwa [hx] at hm

theorem error {x : Run α} (h : Keeps x) {e : Stop} {m m' : Machine} (hx : x m = .error e m') :
    m'.env.keys = m.env.keys := by
  have hm := h m
  rwa [hx] at hm

theorem pure (a : α) : Keeps (pure a : Run α) :=
  fun _ => rfl

theorem throw (e : Stop) : Keeps (throw e : Run α) :=
  fun _ => rfl

theorem bind {x : Run α} {f : α → Run β} (hx : Keeps x) (hf : ∀ a, Keeps (f a)) : Keeps (x >>= f) := by
  intro m
  cases h : (x >>= f) m with
  | ok b m' =>
    obtain ⟨a, m₁, hm₁, hb⟩ := bind_eq_ok.mp h
    exact ((hf a).ok hb).trans (hx.ok hm₁)
  | error e m' =>
    rcases bind_eq_error.mp h with he | ⟨a, m₁, hm₁, he⟩
    · exact hx.error he
    · exact ((hf a).error he).trans (hx.ok hm₁)

theorem note (s : Settings) (level : Nat) (text : Unit → String) : Keeps (note s level text) := by
  intro m
  unfold Run.note
  split <;> rfl

theorem get : Keeps (get : Run Machine) :=
  fun _ => rfl

theorem lookup (t : Token) : Keeps (lookup t) := by
  intro m
  cases h : t.name? with
  | none => rw [lookup_misfit h, final]
  | some x =>
    rw [lookup_apply h]
    cases m.env.get? x <;> rfl

theorem assign (t : Token) (v : Value) : Keeps (assign t v) := by
  intro m
  cases h : t.name? with
  | none => rw [assign_misfit h, final]
  | some x =>
    rw [assign_apply h]
    cases ha : m.env.assign? x v with
    | none => rfl
    | some env => exact Env.keys_assign? ha

end Keeps

theorem closed_keeps (s : Settings) : Closed s fun _ x => Keeps x :=
  ⟨.pure, .throw, .bind, .note s, .lookup, .assign⟩

def inside (s : Settings) (limit : Nat) (ns : List Node) : Run Unit := do
  let depth := (← get).env.depth
  note s 3 fun _ => "enter block at depth " ++ toString depth
  ns.forM (execute s limit)

theorem execute_block (s : Settings) (limit : Nat) (ns : List Node) :
    execute s (limit + 1) (.block ns) = inScope (inside s limit ns) :=
  rfl

structure Declares (n : Node) (x : Run Unit) : Prop where
  ok : ∀ {m m'}, x m = .ok () m' → m'.env.keys = m.env.keys.declare [n]
  error : ∀ {m e m'}, x m = .error e m' → m'.env.keys = m.env.keys

structure DeclaresAll (ns : List Node) (x : Run Unit) : Prop where
  ok : ∀ {m m'}, x m = .ok () m' → m'.env.keys = m.env.keys.declare ns
  error : ∀ {m e m'}, x m = .error e m' → ∃ before, before <+: ns ∧ m'.env.keys = m.env.keys.declare before

section

variable {n : Node} {ns : List Node} {x : Run Unit}

theorem Keeps.declares (h : Keeps x) (hn : n.declares? = none) : Declares n x :=
  ⟨fun hx => (h.ok hx).trans (Keys.declare_none hn _).symm, h.error⟩

theorem Declares.keeps (h : Declares n x) (hn : n.declares? = none) : Keeps x := by
  intro m
  cases hx : x m with
  | ok _ m' => exact (h.ok hx).trans (Keys.declare_none hn _)
  | error e m' => exact h.error hx

theorem Keeps.then_declares {y : Run α} {f : α → Run Unit} (hy : Keeps y) (hf : ∀ a, Declares n (f a)) :
    Declares n (y >>= f) := by
  refine ⟨fun h => ?_, fun h => ?_⟩
  · obtain ⟨a, m₁, hm₁, h⟩ := bind_eq_ok.mp h
    rw [(hf a).ok h, hy.ok hm₁]
  · rcases bind_eq_error.mp h with h | ⟨a, m₁, hm₁, h⟩
    · exact hy.error h
    · rw [(hf a).error h, hy.ok hm₁]

theorem Declares.throw (n : Node) (e : Stop) : Declares n (throw e) :=
  ⟨nofun, (Keeps.throw e).error⟩

theorem forM_declares {f : Node → Run Unit} (h : ∀ n ∈ ns, Declares n (f n)) : DeclaresAll ns (ns.forM f) := by
  induction ns with
  | nil =>
    refine ⟨fun hx => ?_, fun hx => ?_⟩
    · cases hx
      rw [Keys.declare_nil]
    · cases hx
  | cons n ns ih =>
    have hn := h n (by simp)
    have ih := ih fun n' hn' => h n' (by simp [hn'])
    refine ⟨fun hx => ?_, fun hx => ?_⟩
    · obtain ⟨⟨⟩, m₁, hm₁, hx⟩ := bind_eq_ok.mp hx
      rw [ih.ok hx, hn.ok hm₁, ← Keys.declare_append, List.singleton_append]
    · rcases bind_eq_error.mp hx with hx | ⟨⟨⟩, m₁, hm₁, hx⟩
      · exact ⟨[], List.nil_prefix, by rw [hn.error hx, Keys.declare_nil]⟩
      · obtain ⟨before, hp, hkeys⟩ := ih.error hx
        refine ⟨n :: before, List.cons_prefix_cons.mpr ⟨rfl, hp⟩, ?_⟩
        rw [hkeys, hn.ok hm₁, ← Keys.declare_append, List.singleton_append]

theorem DeclaresAll.inScope (h : DeclaresAll ns x) : Keeps (inScope x) := by
  intro m
  have hleave : ∀ (env : Env) (ns : List Node), env.keys = m.env.enter.keys.declare ns → env.leave.keys = m.env.keys := by
    intro env ns hkeys
    have hlocals : env.locals.map Entries.keys = declared [] ns :: m.env.locals.map Entries.keys := congrArg Prod.fst hkeys
    have hglobals : env.globals.keys = m.env.globals.keys := congrArg Prod.snd hkeys
    refine Prod.ext ?_ hglobals
    change env.locals.tail.map Entries.keys = _
    rw [List.map_tail, hlocals]
    rfl
  unfold Run.inScope
  cases hx : x { m with env := m.env.enter } with
  | ok _ m' => exact hleave _ ns (h.ok hx)
  | error e m' =>
    obtain ⟨before, -, hkeys⟩ := h.error hx
    exact hleave _ before hkeys

theorem Keeps.then_declaresAll {y : Run α} {f : α → Run Unit} (hy : Keeps y) (hf : ∀ a, DeclaresAll ns (f a)) :
    DeclaresAll ns (y >>= f) := by
  refine ⟨fun h => ?_, fun h => ?_⟩
  · obtain ⟨a, m₁, hm₁, h⟩ := bind_eq_ok.mp h
    rw [(hf a).ok h, hy.ok hm₁]
  · rcases bind_eq_error.mp h with h | ⟨a, m₁, hm₁, h⟩
    · exact ⟨[], List.nil_prefix, by rw [hy.error h, Keys.declare_nil]⟩
    · obtain ⟨before, hp, hkeys⟩ := (hf a).error h
      exact ⟨before, hp, by rw [hkeys, hy.ok hm₁]⟩

theorem inside_declares {s : Settings} {limit : Nat} (h : ∀ n ∈ ns, Declares n (execute s limit n)) :
    DeclaresAll ns (inside s limit ns) :=
  Keeps.get.then_declaresAll fun _ => (Keeps.note s 3 _).then_declaresAll fun _ => forM_declares h

theorem Declares.then_note (h : Declares n x) (s : Settings) (level : Nat) (text : Unit → String) :
    Declares n (do x; note s level text) := by
  refine ⟨fun hx => ?_, fun hx => ?_⟩
  · obtain ⟨⟨⟩, m₁, hm₁, hx⟩ := bind_eq_ok.mp hx
    rw [(Keeps.note s level text).ok hx, h.ok hm₁]
  · rcases bind_eq_error.mp hx with hx | ⟨⟨⟩, m₁, -, hx⟩
    · exact h.error hx
    · unfold note at hx
      split at hx <;> cases hx

theorem define_declares (t : Token) (initializer : Node) (v : Value) :
    Declares (.var (.token t) initializer) (define t v) := by
  cases hname : t.name? with
  | none =>
    refine ⟨fun h => ?_, fun h => ?_⟩
    · rw [define_misfit hname] at h
      cases h
    · rw [define_misfit hname] at h
      cases h
      rfl
  | some x =>
    refine ⟨fun h => ?_, fun h => ?_⟩
    · rw [define_apply hname] at h
      cases h
      exact Env.keys_define hname
    · rw [define_apply hname] at h
      cases h

theorem var_declares (s : Settings) (name initializer : Node) (v : Value) : Declares (.var name initializer) (do
    let t ← tokenOf name
    define t v
    note s 2 fun _ => "declare " ++ t.spelling ++ " = " ++ v.printed) := by
  cases name with
  | token t => exact (define_declares t initializer v).then_note s 2 _
  | _ => exact .throw _ _

end

theorem Keeps.repeatWhile {condition : Run Bool} {body : Run Unit} (hc : Keeps condition) (hb : Keeps body) :
    ∀ turns count, Keeps (repeatWhile condition body turns count) := by
  intro turns
  induction turns with
  | zero => exact fun _ => .throw .outOfTurns
  | succ turns ih =>
    intro count
    refine hc.bind fun go => ?_
    cases go with
    | false => exact .pure count
    | true => exact hb.bind fun _ => ih (count + 1)

theorem execute_declares (s : Settings) (limit : Nat) {n : Node} (h : n.Tidy) : Declares n (execute s limit n) := by
  have hev := (closed_keeps s).evaluate
  induction limit generalizing n with
  | zero => exact .throw n .tooDeep
  | succ limit ih =>
    cases n with
    | expression e => exact Keeps.declares ((hev limit e).bind fun _ => .pure ()) rfl
    | print e => exact Keeps.declares ((hev limit e).bind fun v => fun _ => rfl) rfl
    | var name initializer =>
      rw [execute]
      split
      · exact var_declares s name initializer .nil
      · exact (hev limit initializer).then_declares fun v => var_declares s name initializer v
    | block ns =>
      rw [execute_block]
      exact (inside_declares fun n hn => ih (Node.tidyAll_iff.mp h n hn)).inScope.declares rfl
    | branch c a b =>
      obtain ⟨⟨ha, hat⟩, hb, hbt⟩ := h
      have ha := (ih hat).keeps (Node.declares?_eq_none ha)
      have hb := (ih hbt).keeps (Node.declares?_eq_none hb)
      refine Keeps.declares ((hev limit c).bind fun v => (Keeps.note s 3 _).bind fun _ => ?_) rfl
      split
      · exact ha
      split
      · exact .pure ()
      · exact hb
    | loop c b =>
      have hb := (ih h.2).keeps (Node.declares?_eq_none h.1)
      have hc : Keeps (Value.truthy <$> evaluate s limit c) := (hev limit c).bind fun v => .pure v.truthy
      exact Keeps.declares ((Keeps.repeatWhile hc hb s.turns 0).bind fun _ => .note s 3 _) rfl
    | _ => exact .throw _ _

section

variable {s : Settings} {limit : Nat}

theorem execute_keeps {n : Node} (h : n.Plain) : Keeps (execute s limit n) :=
  (execute_declares s limit h.2).keeps (Node.declares?_eq_none h.1)

theorem evaluate_variable {t : Token} {m : Machine} :
    evaluate s (limit + 1) (.variable (.token t)) m = lookup t m :=
  rfl

theorem evaluate_assign {t : Token} {e : Node} {m m₁ : Machine} {v : Value} (h : evaluate s limit e m = .ok v m₁) :
    evaluate s (limit + 1) (.assign (.token t) e) m = (do
      assign t v
      note s 2 fun _ => "assign " ++ t.spelling ++ " = " ++ v.printed
      return v) m₁ := by
  rw [evaluate, bind_apply, h]
  rfl

theorem failed_keys (s : Settings) (e : RuntimeError) (m : Machine) : (failed s e m).2.env.keys = m.env.keys := by
  rw [failed_env]

theorem note_return {level : Nat} {text : Unit → String} (v : Value) (m : Machine) :
    ∃ m', (do note s level text; return v : Run Value) m = .ok v m' ∧ m'.env = m.env := by
  by_cases h : level ≤ s.verbosity
  · exact ⟨{ m with notes := m.notes.push ⟨level, text ()⟩ }, by rw [bind_apply, note, if_pos h]; rfl, rfl⟩
  · exact ⟨m, by rw [bind_apply, note, if_neg h]; rfl, rfl⟩

theorem interpret_stops {ns : List Node} (h : ∀ n ∈ ns, n.Tidy) (m : Machine) :
    ∃ before behind m₁, ns = before ++ behind ∧ before.forM (execute s s.depth) m = .ok () m₁ ∧
      (interpret s ns m).2.env.keys = m₁.env.keys ∧
      ((interpret s ns m).1 = .finished ∧ behind = [] ∨
        ∃ n rest e m₂, behind = n :: rest ∧ execute s s.depth n m₁ = .error e m₂ ∧ (interpret s ns m).1 = e.ending n) := by
  induction ns generalizing m with
  | nil => exact ⟨[], [], m, rfl, rfl, rfl, .inl ⟨rfl, rfl⟩⟩
  | cons n ns ih =>
    have hn := execute_declares s s.depth (h n (by simp))
    unfold interpret
    cases hr : execute s s.depth n m with
    | ok u m₁ =>
      obtain ⟨before, behind, m₂, rfl, hbefore, hkeys, hend⟩ := ih (fun n' hn' => h n' (by simp [hn'])) m₁
      exact ⟨n :: before, behind, m₂, rfl, bind_eq_ok.mpr ⟨(), m₁, hr, hbefore⟩, hkeys, hend⟩
    | error e m₁ =>
      have hkeys := hn.error hr
      refine ⟨[], n :: ns, m, rfl, rfl, ?_, .inr ⟨n, ns, e, m₁, rfl, hr, ?_⟩⟩
      · cases e with
        | fault e => exact (failed_keys s e m₁).trans hkeys
        | tooDeep => exact (failed_keys s _ m₁).trans hkeys
        | misfit x => exact hkeys
        | outOfTurns => exact hkeys
      · cases e with
        | fault e => exact failed_fst s e m₁
        | tooDeep => exact failed_fst s _ m₁
        | misfit x => rfl
        | outOfTurns => rfl

end

end Run

end Lox
