import Lox.Proofs.Footprints.Uses
import Lox.Proofs.Layout.Lines
import Lox.Proofs.Scoping.Frames
import Lox.Session

/-!
Runs of one tree side by side. Where a relation of machines is kept by what single parts of a run do, it is kept by runs
of trees, and both come to the same end: on other lines, with other settings, in scopes of another shape or with other
variables that the trees do not use, or with some slack in the nesting. Main statements: `CoupledOn.evaluate`,
`CoupledOn.execute` and `CoupledOn.interpret`.
-/
namespace Lox

def Machine.noted (s : Settings) (level : Nat) (text : String) (m : Machine) : Machine :=
  { m with notes := m.notes ++ s.note level text }

namespace Run

variable {α β : Type} {slack : Nat} {f : Int → Int} {s s' : Settings}

theorem note_apply (s : Settings) (level : Nat) (text : Unit → String) (m : Machine) :
    note s level text m = .ok () (m.noted s level (text ())) := by
  unfold note Machine.noted Settings.note
  split
  · rw [Array.push_eq_append]
  · rw [Array.append_empty]

theorem failed_apply (s : Settings) (e : RuntimeError) (m : Machine) : failed s e m =
    (.failed e, m.noted s 1 ("runtime error at line " ++ toString e.token.line ++ ": " ++ e.message)) := by
  unfold failed
  dsimp only
  rw [note_apply]

theorem inside_apply (s : Settings) (limit : Nat) (ns : List Node) (m : Machine) : inside s limit ns m =
    ns.forM (execute s limit) (m.noted s 3 ("enter block at depth " ++ toString m.env.depth)) := by
  change (note s 3 (fun _ => "enter block at depth " ++ toString m.env.depth) >>= fun _ => ns.forM (execute s limit)) m = _
  rw [bind_apply, note_apply]

inductive Matches (slack : Nat) (f : Int → Int) (R : Machine → Machine → Prop) :
    EStateM.Result Stop Machine α → EStateM.Result Stop Machine α → Prop
  | ok {a m m'} : R m m' → Matches slack f R (.ok a m) (.ok a m')
  | error {e m m'} : R m m' → Matches slack f R (.error e m) (.error (e.reline f) m')
  | tooDeep {m r} : 0 < slack → Matches slack f R (.error .tooDeep m) r

/-- From machines that are related, two parts come to the same end. -/
def Tandem (slack : Nat) (f : Int → Int) (R : Machine → Machine → Prop) (x y : Run α) : Prop :=
  ∀ m m', R m m' → Matches slack f R (x m) (y m')

namespace Tandem

variable {R : Machine → Machine → Prop}

theorem pure (a : α) : Tandem slack f R (pure a) (pure a) :=
  fun _ _ hm => .ok hm

theorem throw {e e' : Stop} (h : e' = e.reline f) : Tandem slack f R (throw e : Run α) (throw e') :=
  fun _ _ hm => h ▸ .error hm

theorem bind {x y : Run α} {k k' : α → Run β} (hx : Tandem slack f R x y) (hk : ∀ a, Tandem slack f R (k a) (k' a)) :
    Tandem slack f R (x >>= k) (y >>= k') := by
  intro m m' hm
  have hr := hx m m' hm
  rw [bind_apply, bind_apply]
  generalize x m = r at hr
  generalize y m' = r' at hr
  cases hr with
  | ok hd => exact hk _ _ _ hd
  | error hd => exact .error hd
  | tooDeep hslack => exact .tooDeep hslack

theorem map {x y : Run α} (hx : Tandem slack f R x y) (k : α → β) : Tandem slack f R (k <$> x) (k <$> y) :=
  hx.bind fun a => .pure (k a)

theorem mono {slack' : Nat} {x y : Run α} (h : Tandem slack f R x y) (hslack : 0 < slack → 0 < slack') :
    Tandem slack' f R x y := by
  intro m m' hm
  have hr := h m m' hm
  generalize x m = r at hr ⊢
  generalize y m' = r' at hr ⊢
  cases hr with
  | ok hd => exact .ok hd
  | error hd => exact .error hd
  | tooDeep hlt => exact .tooDeep (hslack hlt)

theorem tokenOf_bind {n : Node} {k k' : Token → Run α}
    (hk : ∀ t, n = .token t → Tandem slack f R (k t) (k' (t.reline f))) :
    Tandem slack f R (tokenOf n >>= k) (tokenOf (n.reline f) >>= k') := by
  cases n with
  | token t => exact hk t rfl
  | _ => exact .throw rfl

theorem ofExcept (t : Token) (r : Except Fault α) :
    Tandem slack f R (ofExcept (Operation.at_ t r)) (ofExcept (Operation.at_ (t.reline f) r)) := by
  cases r with
  | ok a => exact .pure a
  | error e => exact .throw rfl

theorem repeatWhile {c c' : Run Bool} {b b' : Run Unit} (hc : Tandem slack f R c c') (hb : Tandem slack f R b b') :
    ∀ turns count, Tandem slack f R (repeatWhile c b turns count) (repeatWhile c' b' turns count) := by
  intro turns
  induction turns with
  | zero => exact fun count => .throw rfl
  | succ turns ih =>
    intro count
    refine hc.bind fun go => ?_
    cases go with
    | false => exact .pure count
    | true => exact hb.bind fun _ => ih (count + 1)

theorem forM {ns : List Node} {x y : Node → Run Unit} (h : ∀ n ∈ ns, Tandem slack f R (x n) (y (n.reline f))) :
    Tandem slack f R (ns.forM x) ((Node.relineAll f ns).forM y) := by
  induction ns with
  | nil => exact .pure ()
  | cons n ns ih => exact (h n (by simp)).bind fun _ => ih fun n' hn' => h n' (by simp [hn'])

theorem inScope {S : Machine → Machine → Prop} {x y : Run Unit} (h : Tandem slack f S x y)
    (henter : ∀ {m m'}, R m m' → S { m with env := m.env.enter } { m' with env := m'.env.enter })
    (hleave : ∀ {m m'}, S m m' → R { m with env := m.env.leave } { m' with env := m'.env.leave }) :
    Tandem slack f R (inScope x) (inScope y) := by
  intro m m' hm
  have hr := h _ _ (henter hm)
  unfold Run.inScope
  generalize x { m with env := m.env.enter } = r at hr
  generalize y { m' with env := m'.env.enter } = r' at hr
  cases hr with
  | ok hd => exact .ok (hleave hd)
  | error hd => exact .error (hleave hd)
  | tooDeep hslack => exact .tooDeep hslack

end Tandem

structure CoupledOn (U : Use → Prop) (s s' : Settings) (R : Nat → Machine → Machine → Prop) : Prop where
  turns : s.turns = s'.turns
  note : ∀ {i m m' level}, R i m m' → 2 ≤ level → level ≤ 3 → ∀ text, R i (m.noted s level text) (m'.noted s' level text)
  noteDepth : ∀ {i m m'}, R i m m' → R i (m.noted s 3 ("enter block at depth " ++ toString m.env.depth))
    (m'.noted s' 3 ("enter block at depth " ++ toString m'.env.depth))
  print : ∀ {i m m'}, R i m m' → ∀ line,
    R i { m with printed := m.printed.push line } { m' with printed := m'.printed.push line }
  get? : ∀ {i m m'}, R i m m' → ∀ x, U (.read x) → m.env.get? x = m'.env.get? x
  assign? : ∀ {i m m'}, R i m m' → ∀ x v, U (.written x) →
    Option.Rel (fun env env' => R i { m with env := env } { m' with env := env' }) (m.env.assign? x v) (m'.env.assign? x v)
  define : ∀ {i m m'}, R (i + 1) m m' → ∀ x v, U (.written x) →
    R (i + 1) { m with env := m.env.define x v } { m' with env := m'.env.define x v }
  enter : ∀ {i m m'}, R i m m' → R (i + 1) { m with env := m.env.enter } { m' with env := m'.env.enter }
  leave : ∀ {i m m'}, R (i + 1) m m' → R i { m with env := m.env.leave } { m' with env := m'.env.leave }

abbrev Coupled (s s' : Settings) (R : Nat → Machine → Machine → Prop) : Prop :=
  CoupledOn (fun _ => True) s s' R

theorem coupled_of_env {Q : Array String → Array Note → Array String → Array Note → Prop} (hturns : s.turns = s'.turns)
    (hprint : ∀ {p n p' n'} line, Q p n p' n' → Q (p.push line) n (p'.push line) n')
    (hnote : ∀ {p n p' n' level}, Q p n p' n' → 2 ≤ level → level ≤ 3 → ∀ text,
      Q p (n ++ s.note level text) p' (n' ++ s'.note level text)) :
    Coupled s s' fun _ m m' => m.env = m'.env ∧ Q m.printed m.notes m'.printed m'.notes where
  turns := hturns
  note hm hlow hhigh text := ⟨hm.1, hnote hm.2 hlow hhigh text⟩
  noteDepth hm := ⟨hm.1, hm.1 ▸ hnote hm.2 (by decide) (by decide) _⟩
  print hm line := ⟨hm.1, hprint line hm.2⟩
  get? hm x _ := congrArg (Env.get? x) hm.1
  assign? {_ m m'} hm x v _ := by
    rw [← hm.1]
    cases m.env.assign? x v with
    | some env => exact .some ⟨rfl, hm.2⟩
    | none => exact .none
  define hm x v _ := ⟨congrArg (Env.define x v) hm.1, hm.2⟩
  enter hm := ⟨congrArg Env.enter hm.1, hm.2⟩
  leave hm := ⟨congrArg Env.leave hm.1, hm.2⟩

namespace CoupledOn

variable {U : Use → Prop} {R : Nat → Machine → Machine → Prop} (h : CoupledOn U s s' R) {i : Nat} {m m' : Machine}

include h

theorem note_tandem {level : Nat} (hlow : 2 ≤ level) (hhigh : level ≤ 3) (text : Unit → String) :
    Tandem slack f (R i) (Run.note s level text) (Run.note s' level text) := by
  intro m m' hm
  rw [note_apply, note_apply]
  exact .ok (h.note hm hlow hhigh _)

theorem lookup {t : Token} (hU : ∀ x ∈ t.name?, U (.read x)) :
    Tandem slack f (R i) (lookup t) (lookup (t.reline f)) := by
  intro m m' hm
  cases hname : t.name? with
  | none =>
    have hname' : (t.reline f).name? = none := hname
    rw [lookup_misfit hname, lookup_misfit hname']
    exact .error hm
  | some x =>
    have hname' : (t.reline f).name? = some x := hname
    rw [lookup_apply hname, lookup_apply hname', h.get? hm x (hU x hname)]
    cases m'.env.get? x with
    | some v => exact .ok hm
    | none => exact .error hm

theorem assign {t : Token} (hU : ∀ x ∈ t.name?, U (.written x)) (v : Value) :
    Tandem slack f (R i) (assign t v) (assign (t.reline f) v) := by
  intro m m' hm
  cases hname : t.name? with
  | none =>
    have hname' : (t.reline f).name? = none := hname
    rw [assign_misfit hname, assign_misfit hname']
    exact .error hm
  | some x =>
    have hname' : (t.reline f).name? = some x := hname
    have henv := h.assign? hm x v (hU x hname)
    rw [assign_apply hname, assign_apply hname']
    generalize m.env.assign? x v = env? at henv
    generalize m'.env.assign? x v = env?' at henv
    cases henv with
    | some hd => exact .ok hd
    | none => exact .error hm

theorem define_tandem {t : Token} (hU : ∀ x ∈ t.name?, U (.written x)) (v : Value) :
    Tandem slack f (R (i + 1)) (Run.define t v) (Run.define (t.reline f) v) := by
  intro m m' hm
  cases hname : t.name? with
  | none =>
    have hname' : (t.reline f).name? = none := hname
    rw [define_misfit hname, define_misfit hname']
    exact .error hm
  | some x =>
    have hname' : (t.reline f).name? = some x := hname
    rw [define_apply hname, define_apply hname']
    exact .ok (h.define hm x v (hU x hname))

theorem evaluate (limit : Nat) {n : Node} (hU : ∀ u ∈ n.uses, U u) :
    Tandem slack f (R i) (Lox.evaluate s limit n) (Lox.evaluate s' (limit + slack) (n.reline f)) := by
  induction limit generalizing n with
  | zero =>
    cases slack with
    | zero => exact .throw rfl
    | succ => exact fun _ _ _ => .tooDeep (Nat.succ_pos _)
  | succ limit ih =>
    rw [Nat.succ_add]
    cases n with
    | literal v => exact .pure v
    | grouping e => exact ih (n := e) hU
    | unary o e => exact (ih (n := e) hU).bind fun v => .tokenOf_bind fun t _ => .ofExcept t (Operation.unary t v)
    | binary a o b =>
      obtain ⟨ha, hb⟩ := List.forall_mem_append.mp hU
      exact (ih ha).bind fun left => (ih hb).bind fun right => .tokenOf_bind fun t _ =>
        .ofExcept t (Operation.binary t left right)
    | logical a o b =>
      obtain ⟨ha, hb⟩ := List.forall_mem_append.mp hU
      refine (ih ha).bind fun left => .tokenOf_bind fun t _ => ?_
      change Tandem slack f (R i) (if logicalShort t left then _ else _) (if logicalShort t left then _ else _)
      split
      · exact .pure left
      · exact ih hb
    | «variable» name =>
      refine .tokenOf_bind fun t ht => h.lookup fun x hx => hU _ (Node.mem_name? ?_)
      rw [ht]
      exact hx
    | assign name e =>
      obtain ⟨he, hname⟩ := List.forall_mem_append.mp hU
      refine (ih he).bind fun v => .tokenOf_bind fun t ht => ?_
      subst ht
      refine (h.assign (fun x hx => hname _ (Node.mem_name? hx)) v).bind fun _ => ?_
      exact (h.note_tandem (by decide) (by decide) _).bind fun _ => .pure v
    | _ => exact .throw rfl

theorem inside {limit limit' : Nat} {ns : List Node}
    (hns : ∀ n ∈ ns, Tandem slack f (R i) (Lox.execute s limit n) (Lox.execute s' limit' (n.reline f))) :
    Tandem slack f (R i) (inside s limit ns) (inside s' limit' (Node.relineAll f ns)) := by
  intro m m' hm
  rw [inside_apply, inside_apply]
  exact Tandem.forM hns _ _ (h.noteDepth hm)

theorem execute (limit : Nat) {n : Node} (hU : ∀ u ∈ n.uses, U u) (hn : 0 < i ∨ n.Plain) :
    Tandem slack f (R i) (Lox.execute s limit n) (Lox.execute s' (limit + slack) (n.reline f)) := by
  induction limit generalizing i n with
  | zero =>
    cases slack with
    | zero => exact .throw rfl
    | succ => exact fun _ _ _ => .tooDeep (Nat.succ_pos _)
  | succ limit ih =>
    have hev : ∀ {n : Node}, (∀ u ∈ n.uses, U u) →
        Tandem slack f (R i) (Lox.evaluate s limit n) (Lox.evaluate s' (limit + slack) (n.reline f)) :=
      h.evaluate limit
    rw [Nat.succ_add]
    cases n with
    | expression e => exact (hev (n := e) hU).bind fun _ => .pure ()
    | print e =>
      exact (hev (n := e) hU).bind fun v => fun m m' hm => .ok (h.print hm v.printed)
    | var name initializer =>
      obtain ⟨j, rfl⟩ : ∃ j, i = j + 1 := by
        rcases hn with hi | hn
        · exact ⟨i - 1, by omega⟩
        · cases hn.1
      obtain ⟨hinitializer, hname⟩ := List.forall_mem_append.mp hU
      have hdefine : ∀ v, Tandem slack f (R (j + 1))
          (do let t ← tokenOf name; Run.define t v; Run.note s 2 fun _ => "declare " ++ t.spelling ++ " = " ++ v.printed)
          (do
            let t ← tokenOf (name.reline f)
            Run.define t v
            Run.note s' 2 fun _ => "declare " ++ t.spelling ++ " = " ++ v.printed) := by
        refine fun v => .tokenOf_bind fun t ht => ?_
        subst ht
        exact (h.define_tandem (fun x hx => hname _ (Node.mem_name? hx)) v).bind fun _ =>
          h.note_tandem (by decide) (by decide) _
      simp only [Lox.execute, Node.reline, Node.reline_eq_absent]
      split
      · exact hdefine .nil
      · exact (hev hinitializer).bind hdefine
    | block statements =>
      -- whatever the block is in, its own statements are inside and may declare
      exact .inScope (h.inside fun n hn => ih (fun u hu => hU u (Node.mem_usesAll hn hu)) (.inl (Nat.succ_pos i)))
        h.enter h.leave
    | branch condition thenBranch elseBranch =>
      have hparts : (0 < i ∨ thenBranch.Plain) ∧ (0 < i ∨ elseBranch.Plain) :=
        ⟨hn.imp_right fun hn => hn.2.1, hn.imp_right fun hn => hn.2.2⟩
      obtain ⟨hU, helse⟩ := List.forall_mem_append.mp hU
      obtain ⟨hcondition, hthen⟩ := List.forall_mem_append.mp hU
      simp only [Lox.execute, Node.reline, Node.reline_eq_absent]
      refine (hev hcondition).bind fun v => (h.note_tandem (by decide) (by decide) _).bind fun _ => ?_
      split
      · exact ih hthen hparts.1
      split
      · exact .pure ()
      · exact ih helse hparts.2
    | loop condition body =>
      obtain ⟨hcondition, hU⟩ := List.forall_mem_append.mp hU
      have hbody : 0 < i ∨ body.Plain := hn.imp_right fun hn => hn.2
      have hloop := ((hev hcondition).map Value.truthy).repeatWhile (ih hU hbody) s.turns 0
      simp only [Lox.execute, Node.reline]
      rw [← h.turns]
      exact hloop.bind fun _ => h.note_tandem (by decide) (by decide) _
    | _ => exact .throw (by rw [Node.kindName_reline]; rfl)

theorem interpret (hdepth : s.depth = s'.depth)
    (hfailed : ∀ {m m'} (e : RuntimeError), R 1 m m' → R 1 (failed s e m).2 (failed s' (e.reline f) m').2)
    {ns : List Node} (hU : ∀ u ∈ Node.usesAll ns, U u) (hm : R 1 m m')
    (hf : f 0 = 0 ∨ ∀ e, (Lox.interpret s ns m).1 = .failed e → e.fault = .nestingTooDeep → e.token.line ≠ 0) :
    (Lox.interpret s' (Node.relineAll f ns) m').1 = (Lox.interpret s ns m).1.reline f ∧
      R 1 (Lox.interpret s ns m).2 (Lox.interpret s' (Node.relineAll f ns) m').2 := by
  have hfst : ∀ (x : RuntimeError) m m', (failed s' (x.reline f) m').1 = (failed s x m).1.reline f := by
    intro x m m'
    rw [failed_fst, failed_fst]
    rfl
  induction ns generalizing m m' with
  | nil => exact ⟨rfl, hm⟩
  | cons n ns ih =>
    obtain ⟨hn, hns⟩ := List.forall_mem_append.mp hU
    have hr : Matches 0 f (R 1) (Lox.execute s s.depth n m) (Lox.execute s' s.depth (n.reline f) m') :=
      h.execute s.depth hn (.inl Nat.one_pos) m m' hm
    rw [Node.relineAll, Lox.interpret, Lox.interpret, ← hdepth]
    rw [Lox.interpret] at hf
    generalize Lox.execute s s.depth n m = r at hr hf
    generalize Lox.execute s' s.depth (n.reline f) m' = r' at hr
    cases hr with
    | ok hd => exact ih hns hd hf
    | tooDeep hslack => cases hslack
    | @error e _ _ hd =>
      cases e with
      | fault x => exact ⟨hfst x _ _, hfailed x hd⟩
      | misfit | outOfTurns => exact ⟨rfl, hd⟩
      | tooDeep =>
        have hline : f 0 = 0 ∨ n.firstToken.line ≠ 0 := hf.imp_right fun h => h _ (failed_fst _ _ _) rfl
        dsimp only [Stop.reline]
        rw [Node.firstToken_reline f hline]
        exact ⟨hfst ⟨n.firstToken, .nestingTooDeep⟩ _ _, hfailed ⟨n.firstToken, .nestingTooDeep⟩ hd⟩

end CoupledOn

namespace Coupled

variable {R : Nat → Machine → Machine → Prop} (h : Coupled s s' R) {i : Nat}

include h

theorem evaluate_same (limit : Nat) (n : Node) :
    Tandem slack id (R i) (Lox.evaluate s limit n) (Lox.evaluate s' (limit + slack) n) := by
  have hn : Tandem slack id (R i) (Lox.evaluate s limit n) (Lox.evaluate s' (limit + slack) (n.reline id)) :=
    CoupledOn.evaluate h limit fun _ _ => trivial
  rwa [Node.reline_id] at hn

theorem execute_same (limit : Nat) (n : Node) (hn : 0 < i ∨ n.Plain) :
    Tandem slack id (R i) (Lox.execute s limit n) (Lox.execute s' (limit + slack) n) := by
  have hn : Tandem slack id (R i) (Lox.execute s limit n) (Lox.execute s' (limit + slack) (n.reline id)) :=
    CoupledOn.execute h limit (fun _ _ => trivial) hn
  rwa [Node.reline_id] at hn

end Coupled

end Run

end Lox
