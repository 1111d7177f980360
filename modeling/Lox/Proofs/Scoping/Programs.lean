import Lox.Proofs.Ascent.Text
import Lox.Proofs.Scoping.Frames
import Lox.Reading

namespace Lox

open Ascent (Phrase)

namespace Node

theorem tidy_block {ns : List Node} (h : ∀ n ∈ ns, n.Tidy) : (block ns).Tidy :=
  tidyAll_iff.mpr h

theorem plain_fold (l : Level) (left : Node) (operator : Token) (right : Node) :
    (Phrase.fold l left operator right).Plain := by
  unfold Phrase.fold
  split <;> exact ⟨rfl, trivial⟩

theorem plain_pair {a b : Node} (ha : a.Tidy) (hb : b.Tidy) : (block [a, b]).Plain := by
  refine ⟨rfl, tidy_block fun n hn => ?_⟩
  simp only [List.mem_cons, List.not_mem_nil, or_false] at hn
  rcases hn with rfl | rfl
  · exact ha
  · exact hb

theorem plain_forLoop {initializer condition increment : Option Node} {body : Node}
    (hi : ∀ n ∈ initializer, n.Tidy) (hb : body.Plain) : (forLoop initializer condition increment body).Plain := by
  have hwhile : ∀ {c b : Node}, b.Plain → (loop c b).Plain := fun hb => ⟨rfl, hb⟩
  have hrepeated : ∀ e, (block [body, expression e]).Plain := fun e => plain_pair hb.2 trivial
  cases initializer with
  | none =>
    cases increment with
    | none => exact hwhile hb
    | some e => exact hwhile (hrepeated e)
  | some s =>
    cases increment with
    | none => exact plain_pair (hi s rfl) (hwhile hb).2
    | some e => exact plain_pair (hi s rfl) (hwhile (hrepeated e)).2

end Node

namespace Grammar

def Symbol.declares : Symbol → Bool
  | .declaration | .varDeclaration | .forInitializer => true
  | _ => false

theorem Derives.tidy {lenient : Bool} {s : Symbol} {ts rest : List Token} {p : Phrase} (h : Derives lenient s ts rest p) :
    p.node.Tidy ∧ (s.declares = false → p.node.isVar = false) := by
  induction h with
  | moreDeclarations _ _ ih ih' => exact ⟨⟨ih.1, ih'.1⟩, fun _ => rfl⟩
  | varDeclared _ ih | stated _ ih | initializerVar _ ih | initializerExpression _ ih => exact ⟨ih.1, nofun⟩
  | varAbsent | varInitialized => exact ⟨trivial, nofun⟩
  | expressed _ ih | block _ _ _ ih | clausePresent _ ih | joinedAll _ ih | single _ ih | tightest _ ih | primary _ ih =>
    exact ⟨ih.1, fun _ => ih.2 rfl⟩
  | ifOnly _ _ _ _ _ _ _ ih => exact ⟨⟨⟨ih.2 rfl, ih.1⟩, rfl, trivial⟩, fun _ => rfl⟩
  | ifElse _ _ _ _ _ _ _ _ ih ih' => exact ⟨⟨⟨ih.2 rfl, ih.1⟩, ih'.2 rfl, ih'.1⟩, fun _ => rfl⟩
  | loop _ _ _ _ _ _ ih => exact ⟨⟨ih.2 rfl, ih.1⟩, fun _ => rfl⟩
  | @forLoop _ _ _ _ _ _ _ _ _ i c e b _ _ _ _ _ _ _ _ ihi _ _ ihb =>
    have hi : ∀ n ∈ (if i.isAbsent then none else some i.node), n.Tidy := by
      intro n hn
      split at hn
      · cases hn
      · cases hn
        exact ihi.1
    have hloop : (Phrase.forLoop i c e b).node.Plain := Node.plain_forLoop hi ⟨ihb.2 rfl, ihb.1⟩
    exact ⟨hloop.2, fun _ => hloop.1⟩
  | misassign _ _ hne _ _ _ ih =>
    rw [Phrase.node_assign _ hne]
    exact ⟨ih.1, fun _ => ih.2 rfl⟩
  | joined => exact ⟨(Node.plain_fold _ _ _ _).2, fun _ => (Node.plain_fold _ _ _ _).1⟩
  | _ => exact ⟨trivial, fun _ => rfl⟩

end Grammar

theorem nodes_tidy {ps : List Phrase} (h : (Phrase.block ps).node.Tidy) : ∀ n ∈ Phrase.nodes ps, n.Tidy :=
  Node.tidyAll_iff.mp h

namespace Parse

variable {α β : Type}

def Yields (P : α → Prop) (x : Parse α) : Prop :=
  ∀ c a c', x c = .ok a c' → P a

namespace Yields

variable {P : α → Prop} {Q : β → Prop}

theorem pure {a : α} (h : P a) : Yields P (pure a) := by
  intro c b c' hx
  cases hx
  exact h

theorem throw (e : Halt) : Yields P (throw e) :=
  nofun

theorem bind_of {x : Parse α} {f : α → Parse β} (hx : Yields P x) (hf : ∀ a, P a → Yields Q (f a)) :
    Yields Q (x >>= f) := by
  intro c b c' h
  obtain ⟨a, d, ha, hb⟩ := bind_eq_ok.mp h
  exact hf a (hx c a d ha) d b c' hb

theorem bind {x : Parse α} {f : α → Parse β} (hf : ∀ a, Yields Q (f a)) : Yields Q (x >>= f) :=
  bind_of (P := fun _ => True) (fun _ _ _ _ => trivial) fun a _ => hf a

theorem ite {p : Prop} [Decidable p] {x y : Parse α} (hx : Yields P x) (hy : Yields P y) :
    Yields P (if p then x else y) := by
  split
  · exact hx
  · exact hy

theorem untilKind {kinds : List Kind} {part : Parse (Option α)} (h : Yields (fun a? => ∀ a ∈ a?, P a) part) :
    ∀ turns before, (∀ a ∈ before, P a) → Yields (fun as => ∀ a ∈ as, P a) (untilKind kinds part turns before) := by
  intro turns
  induction turns with
  | zero => exact fun _ _ => throw .noEnd
  | succ turns ih =>
    intro before hb
    refine bind fun t => ite (pure fun a ha => hb a (List.mem_reverse.mp ha)) ?_
    refine bind_of h fun a? ha => ih _ fun a hm => ?_
    rcases List.mem_append.mp hm with hm | hm
    · exact ha a (Option.mem_toList.mp hm)
    · exact hb a hm

theorem recover {part : Parse α} (h : Yields P part) : Yields (fun a? => ∀ a ∈ a?, P a) (recover part) := by
  have hnone : ∀ x : Parse Unit, Yields (fun a? : Option α => ∀ a ∈ a?, P a) (do x; return none) := by
    exact fun x => bind fun _ => pure (by simp)
  intro c a? c' hx
  unfold Parse.recover at hx
  cases hp : part c with
  | ok a d =>
    rw [hp] at hx
    cases hx
    intro b hb
    cases hb
    exact h c a _ hp
  | error e d =>
    rw [hp] at hx
    cases e with
    | complained => exact hnone _ _ _ _ hx
    | tooDeep => exact (bind fun _ => hnone _ : Yields _ _) _ _ _ hx
    | noEnd => cases hx

end Yields

end Parse

namespace Descent

open Node Parse

variable {turns : Nat}

section

variable {expression statement : Parse Node}

theorem varDeclaration_tidy : Yields Tidy (varDeclaration expression) := by
  refine .bind fun name => .bind fun equals => ?_
  cases equals <;> exact .bind fun initializer => .bind fun _ => .pure trivial

theorem expressionStatement_plain : Yields Plain (expressionStatement expression) :=
  .bind fun _ => .bind fun _ => .pure ⟨rfl, trivial⟩

theorem forInitializer_tidy : Yields (fun i => ∀ n ∈ i, n.Tidy) (forInitializer expression) := by
  refine .bind fun _ => .ite (.pure (by simp)) (.bind fun _ => .ite ?_ ?_)
  · exact .bind_of varDeclaration_tidy fun n hn => .pure (by simpa using hn)
  · exact .bind_of expressionStatement_plain fun n hn => .pure (by simpa using hn.2)

variable (hs : Yields Plain statement)

include hs

theorem forStatement_plain : Yields Plain (forStatement expression statement) :=
  .bind fun _ => .bind_of forInitializer_tidy fun _ hi => .bind fun _ => .bind fun _ => .bind_of hs fun _ hb =>
    .pure (plain_forLoop hi hb)

theorem ifStatement_plain : Yields Plain (ifStatement expression statement) := by
  refine .bind fun _ => .bind fun c => .bind fun _ => .bind_of hs fun a ha => .bind fun word => ?_
  cases word with
  | some _ => exact .bind_of hs fun b hb => .pure ⟨rfl, ha, hb⟩
  | none => exact .pure ⟨rfl, ha, rfl, trivial⟩

theorem whileStatement_plain : Yields Plain (whileStatement expression statement) :=
  .bind fun _ => .bind fun _ => .bind fun _ => .bind_of hs fun _ hb => .pure ⟨rfl, hb⟩

end

theorem block_plain {declaration : Parse (Option Node)} (h : Yields (fun d => ∀ n ∈ d, n.Tidy) declaration) :
    Yields Plain (block turns declaration) :=
  .bind_of (Yields.untilKind h turns [] (by simp)) fun _ hns => .bind fun _ => .pure ⟨rfl, tidy_block hns⟩

theorem statements_plain (turns limit : Nat) :
    Yields Plain (statement turns limit) ∧ Yields (fun d => ∀ n ∈ d, n.Tidy) (declaration turns limit) := by
  induction limit with
  | zero => exact ⟨.throw _, .throw _⟩
  | succ limit ih =>
    obtain ⟨hs, hd⟩ := ih
    refine ⟨?_, ?_⟩
    · refine .bind fun _ => .bind fun _ => .ite (forStatement_plain hs) ?_
      refine .bind fun _ => .ite (ifStatement_plain hs) ?_
      refine .bind fun _ => .ite (.bind fun _ => .bind fun _ => .pure ⟨rfl, trivial⟩) ?_
      refine .bind fun _ => .ite (whileStatement_plain hs) ?_
      exact .bind fun _ => .ite (block_plain hd) expressionStatement_plain
    · refine .bind fun _ => .recover (.bind fun _ => .ite varDeclaration_tidy ?_)
      exact fun c n c' h => (hs c n c' h).2

theorem program_tidy {limit : Nat} {tokens : List Token} {ns : List Node} {c : Cursor}
    (h : program limit tokens = .ok ns c) : ∀ n ∈ ns, n.Tidy :=
  Yields.untilKind (statements_plain tokens.length limit).2 tokens.length [] (by simp) _ ns c h

end Descent

theorem statements_tidy (f : FrontEnd) (source : String) : ∀ n ∈ (f.read source).statements, n.Tidy := by
  cases f with
  | descent =>
    change ∀ n ∈ (Reading.descent source).statements, n.Tidy
    unfold Reading.descent
    dsimp only
    split
    · rename_i h
      exact Descent.program_tidy h
    · simp
  | ascent =>
    change ∀ n ∈ (Ascent.program Ascent.parse Ascent.heightLimit source).1, n.Tidy
    cases hphrases : Ascent.phrases source with
    | error f =>
      rw [Ascent.program_of_error hphrases]
      simp
    | ok ps =>
      obtain ⟨line, hprogram⟩ := Ascent.program_of_ok hphrases
      obtain ⟨-, e, -, h⟩ := Ascent.phrases_eq_ok_iff.mp hphrases
      rw [hprogram]
      split
      · simp
      · exact nodes_tidy h.tidy.1

end Lox
