import Lox.Proofs.Scoping.Frames
import Lox.Proofs.Scoping.Sites

/-!
The parts of a program that a run comes to, each at its site: the scopes there are those of the blocks around the
site, with the names declared so far. Main statement: `Reached.keys`.
-/
namespace Lox

open Run

inductive Task where
  | execute (n : Node)
  | evaluate (n : Node)

def Task.Tidy : Task → Prop
  | .execute n => n.Tidy
  | .evaluate _ => True

inductive Turns (s : Settings) (limit : Nat) (condition body : Node) : Machine → Machine → Prop
  | none {m} : Turns s limit condition body m m
  | more {m m₁ m₂ m₃ v} : Turns s limit condition body m m₁ → evaluate s limit condition m₁ = .ok v m₂ →
      v.truthy = true → execute s limit body m₂ = .ok () m₃ → Turns s limit condition body m m₃

inductive Calls (s : Settings) (limit : Nat) : Task → Machine → Task → Machine → Prop
  | expression {e m} : Calls s limit (.execute (.expression e)) m (.evaluate e) m
  | print {e m} : Calls s limit (.execute (.print e)) m (.evaluate e) m
  | initializer {name e m} : e ≠ .absent → Calls s limit (.execute (.var name e)) m (.evaluate e) m
  | condition {c a b m} : Calls s limit (.execute (.branch c a b)) m (.evaluate c) m
  | thenBranch {c a b m m₁ m₂ v} : evaluate s limit c m = .ok v m₁ →
      note s 3 (fun _ => conditionNote v) m₁ = .ok () m₂ → v.truthy = true →
      Calls s limit (.execute (.branch c a b)) m (.execute a) m₂
  | elseBranch {c a b m m₁ m₂ v} : evaluate s limit c m = .ok v m₁ →
      note s 3 (fun _ => conditionNote v) m₁ = .ok () m₂ → v.truthy = false → b ≠ .absent →
      Calls s limit (.execute (.branch c a b)) m (.execute b) m₂
  | loopCondition {c b m m₁} : Turns s limit c b m m₁ → Calls s limit (.execute (.loop c b)) m (.evaluate c) m₁
  | loopBody {c b m m₁ m₂ v} : Turns s limit c b m m₁ → evaluate s limit c m₁ = .ok v m₂ → v.truthy = true →
      Calls s limit (.execute (.loop c b)) m (.execute b) m₂
  | grouping {e m} : Calls s limit (.evaluate (.grouping e)) m (.evaluate e) m
  | unary {o e m} : Calls s limit (.evaluate (.unary o e)) m (.evaluate e) m
  | binaryLeft {a o b m} : Calls s limit (.evaluate (.binary a o b)) m (.evaluate a) m
  | binaryRight {a o b m m₁ v} : evaluate s limit a m = .ok v m₁ →
      Calls s limit (.evaluate (.binary a o b)) m (.evaluate b) m₁
  | logicalLeft {a o b m} : Calls s limit (.evaluate (.logical a o b)) m (.evaluate a) m
  | logicalRight {a t b m m₁ v} : evaluate s limit a m = .ok v m₁ → logicalShort t v = false →
      Calls s limit (.evaluate (.logical a (.token t) b)) m (.evaluate b) m₁
  | assigned {name e m} : Calls s limit (.evaluate (.assign name e)) m (.evaluate e) m

/-- A run of a program comes to a task at a site, with a limit of nesting and in a machine. -/
inductive Reached (s : Settings) (program : List Node) (start : Machine) : Site → Nat → Task → Machine → Prop
  | top {before n behind m} : program = before ++ n :: behind → before.forM (execute s s.depth) start = .ok () m →
      Reached s program start ⟨[], before⟩ s.depth (.execute n) m
  | block {p limit before n behind m m₁} :
      Reached s program start p (limit + 1) (.execute (.block (before ++ n :: behind))) m →
      inside s limit before { m with env := m.env.enter } = .ok () m₁ →
      Reached s program start (p.inner before) limit (.execute n) m₁
  | call {p limit t m t' m'} : Reached s program start p (limit + 1) t m → Calls s limit t m t' m' →
      Reached s program start p limit t' m'

section

variable {s : Settings} {limit : Nat}

theorem Turns.keys {c b : Node} {m m' : Machine} (h : Turns s limit c b m m') (hb : Keeps (execute s limit b)) :
    m'.env.keys = m.env.keys := by
  induction h with
  | none => rfl
  | more _ hc _ hx ih => rw [hb.ok hx, ((closed_keeps s).evaluate limit c).ok hc, ih]

theorem Calls.keys {t t' : Task} {m m' : Machine} (h : Calls s limit t m t' m') (ht : t.Tidy) :
    t'.Tidy ∧ m'.env.keys = m.env.keys := by
  have hev := (closed_keeps s).evaluate limit
  cases h with
  | expression | print | condition | grouping | unary | binaryLeft | logicalLeft | assigned => exact ⟨trivial, rfl⟩
  | initializer => exact ⟨trivial, rfl⟩
  | thenBranch hc hn => exact ⟨ht.1.2, by rw [(Keeps.note s 3 _).ok hn, (hev _).ok hc]⟩
  | elseBranch hc hn => exact ⟨ht.2.2, by rw [(Keeps.note s 3 _).ok hn, (hev _).ok hc]⟩
  | loopCondition hturns => exact ⟨trivial, hturns.keys (execute_keeps ht)⟩
  | loopBody hturns hc => exact ⟨ht.2, by rw [(hev _).ok hc, hturns.keys (execute_keeps ht)]⟩
  | binaryRight ha => exact ⟨trivial, (hev _).ok ha⟩
  | logicalRight ha => exact ⟨trivial, (hev _).ok ha⟩

theorem forM_execute_declares {before : List Node} (h : ∀ n ∈ before, n.Tidy) :
    DeclaresAll before (before.forM (execute s limit)) :=
  forM_declares fun n hn => execute_declares s limit (h n hn)

theorem inside_keys {before : List Node} {m m₁ : Machine} (h : ∀ n ∈ before, n.Tidy)
    (hx : inside s limit before { m with env := m.env.enter } = .ok () m₁) :
    m₁.env.keys = (declared [] before :: m.env.keys.1, m.env.keys.2) :=
  (inside_declares fun n hn => execute_declares s limit (h n hn)).ok hx

theorem Reached.keys {program : List Node} {start : Machine} {globals : Scope} {p : Site} {t : Task} {m : Machine}
    (h : Reached s program start p limit t m) (hp : ∀ n ∈ program, n.Tidy) (hs : start.env = .start globals) :
    t.Tidy ∧ m.env.keys = p.keys globals.keys := by
  induction h with
  | @top before n behind m heq hm =>
    subst heq
    refine ⟨hp n (by simp), ?_⟩
    rw [(forM_execute_declares fun n' hn' => hp n' (by simp [hn'])).ok hm, hs]
    rfl
  | @block p limit before n behind m m₁ _ hx ih =>
    obtain ⟨ht, hkeys⟩ := ih
    have htidy := Node.tidyAll_iff.mp ht
    refine ⟨htidy n (by simp), ?_⟩
    rw [inside_keys (fun n' hn' => htidy n' (by simp [hn'])) hx, hkeys]
    rfl
  -- inside a statement no keys change, so those of its site still hold
  | call _ hc ih =>
    obtain ⟨ht, hkeys⟩ := hc.keys ih.1
    exact ⟨ht, hkeys.trans ih.2⟩

end

end Lox
