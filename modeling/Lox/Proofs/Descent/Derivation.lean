import Lox.Proofs.Descent.Rules
import Lox.Proofs.Grammar

namespace Lox

open Ascent (Phrase)
open Grammar

namespace Cursor

def Marks (c c' : Cursor) (marks : List Token) : Prop :=
  ∃ cs, c'.complaints.toList = c.complaints.toList ++ cs ∧
    (∀ x ∈ cs, x.problem = .invalidAssignmentTarget) ∧ cs.map Complaint.token = marks

def Spares (c c' : Cursor) : Prop :=
  ∃ marks, c.Marks c' marks

namespace Marks

variable {a b c : Cursor} {ms ns : List Token}

theorem refl (c : Cursor) : c.Marks c [] :=
  ⟨[], by simp⟩

theorem trans (hab : a.Marks b ms) (hbc : b.Marks c ns) : a.Marks c (ms ++ ns) := by
  obtain ⟨cs, hcs, hp, rfl⟩ := hab
  obtain ⟨ds, hds, hq, rfl⟩ := hbc
  refine ⟨cs ++ ds, by simp [hds, hcs], ?_, by simp⟩
  intro x hx
  rcases List.mem_append.mp hx with h | h
  · exact hp x h
  · exact hq x h

end Marks

theorem Spares.split {a b c : Cursor} (h : a.Spares c) (hab : a.Reaches b) (hbc : b.Reaches c) :
    a.Spares b ∧ b.Spares c := by
  obtain ⟨_, cs, hcs, hp, -⟩ := h
  obtain ⟨ds, hds⟩ := hab.complaints
  obtain ⟨es, hes⟩ := hbc.complaints
  have hcat : cs = ds ++ es := by
    apply (List.append_right_inj a.complaints.toList).mp
    rw [← hcs, ← List.append_assoc, hds, hes]
  subst hcat
  exact ⟨⟨_, ds, hds.symm, fun x hx => hp x (by simp [hx]), rfl⟩,
    ⟨_, es, hes.symm, fun x hx => hp x (by simp [hx]), rfl⟩⟩

theorem Blames.not_spares {a b : Cursor} (h : a.Blames b) : ¬ a.Spares b := by
  rintro ⟨_, cs, hcs, hp, -⟩
  obtain ⟨ds, x, hx, hne⟩ := h
  have hcat : cs = ds ++ [x] := by
    apply (List.append_right_inj a.complaints.toList).mp
    rw [← hcs, hx, List.append_assoc]
  exact hne (hp x (by simp [hcat]))

end Cursor

namespace Parse

variable {α β : Type} {turns : Nat}

theorem accept?_bind_eq_ok {kinds : List Kind} {f : Option Token → Parse β} {c c' : Cursor} {b : β}
    (h : (accept? kinds >>= f) c = .ok b c') :
    (∃ t ts, c.rest = t :: ts ∧ t.kind ∈ kinds ∧ f (some t) (skip [t] ts c) = .ok b c') ∨
      (∀ k ∈ kinds, k ≠ .eof → next? c.rest ≠ some k) ∧ f none c = .ok b c' := by
  obtain ⟨t?, d, ht, hf⟩ := bind_eq_ok.mp h
  cases hc : c.rest with
  | nil => simp [accept?, hc] at ht
  | cons u us =>
    rw [accept?_cons kinds hc] at ht
    split at ht
    · rename_i hu
      cases ht
      exact .inl ⟨_, us, rfl, hu.2, hf⟩
    · rename_i hu
      cases ht
      refine .inr ⟨fun k hk hke heq => hu ?_, hf⟩
      simp only [next?, List.head?_cons, Option.map_some, Option.some.injEq] at heq
      exact ⟨heq ▸ hke, heq ▸ hk⟩

theorem expect_bind_eq_ok {kind : Kind} {e : Expected} {f : Token → Parse β} {c c' : Cursor} {b : β}
    (h : (expect kind e >>= f) c = .ok b c') :
    ∃ t ts, c.rest = t :: ts ∧ t.kind = kind ∧ f t (skip [t] ts c) = .ok b c' := by
  obtain ⟨t, d, ht, hf⟩ := bind_eq_ok.mp h
  rcases accept?_bind_eq_ok ht with ⟨u, us, hc, hk, hu⟩ | ⟨-, hn⟩
  · cases hu
    exact ⟨_, us, hc, by simpa using hk, hf⟩
  · obtain ⟨_, _, -, hn⟩ := bind_eq_ok.mp hn
    cases hn

theorem Orderly.reaches {x : Parse α} (hx : Orderly turns x) {c c' : Cursor} {a : α} (h : x c = .ok a c') :
    c.Reaches c' := by
  have hc := hx c
  rwa [h] at hc

def Reads (s : Symbol) (part : Parse Node) : Prop :=
  ∀ c n c', part c = .ok n c' → c.Spares c' →
    ∃ p, Derives true s c.rest c'.rest p ∧ n = p.node ∧ c.Marks c' p.misassigned

def ReadsBehind (kind : Kind) (s : Symbol) (part : Parse Node) : Prop :=
  ∀ k : Token, k.kind = kind → ∀ c n c', part c = .ok n c' → c.Spares c' →
    ∃ p, Derives true s (k :: c.rest) c'.rest p ∧ n = p.node ∧ c.Marks c' p.misassigned

theorem Reads.first {s : Symbol} {x : Parse Node} (hr : Reads s x) (hx : Orderly turns x) {c d c' : Cursor}
    {n : Node} (h : x c = .ok n d) (hd : d.Reaches c') (hs : c.Spares c') :
    (∃ p, Derives true s c.rest d.rest p ∧ n = p.node ∧ c.Marks d p.misassigned) ∧ d.Spares c' := by
  obtain ⟨hc, hs'⟩ := hs.split (hx.reaches h) hd
  exact ⟨hr c n d h hc, hs'⟩

end Parse

open Parse

namespace Descent

variable {turns : Nat}

section

variable {level : Level} {tighter : List Level} {operand : Parse Node}

theorem chain_reads (ho : Orderly turns operand) (hr : Reads (.operand tighter) operand) :
    ∀ n, n ≤ turns → ∀ ts p c m c', Derives true (.operand (level :: tighter)) ts c.rest p →
      chain level operand n p.node c = .ok m c' → c.Spares c' →
      ∃ q ms, Derives true (.operand (level :: tighter)) ts c'.rest q ∧ m = q.node ∧ c.Marks c' ms ∧
        q.misassigned = p.misassigned ++ ms := by
  intro n
  induction n with
  | zero =>
    intro _ ts p c m c' _ h
    cases h
  | succ n ih =>
    intro hn ts p c m c' hp h hs
    rw [chain, join_eq_fold] at h
    rcases accept?_bind_eq_ok h with ⟨t, us, hc, hk, h⟩ | ⟨-, h⟩
    · obtain ⟨right, d, hx, h⟩ := bind_eq_ok.mp h
      have hd : d.Reaches c' := by
        have hch : Orderly n (chain level operand n (Phrase.fold level p.node t right)) := orderly_chain ho n _ (by omega)
        exact hch.reaches h
      obtain ⟨⟨q, hq, rfl, hmq⟩, hs'⟩ := hr.first ho hx hd hs
      have hj : Derives true (.operand (level :: tighter)) ts d.rest (.joined level p t q) :=
        .joined (hc ▸ hp) hk hq
      obtain ⟨r, ms, hr', hnode, hmr, hmis⟩ := ih (by omega) ts _ d m c' hj h hs'
      refine ⟨r, q.misassigned ++ ms, hr', hnode, hmq.trans hmr, ?_⟩
      rw [hmis, Phrase.misassigned, List.append_assoc]
    · cases h
      exact ⟨p, [], hp, rfl, .refl c, by simp⟩

end

section

variable {expression : Parse Node} (he : Orderly turns expression) (hr : Reads .expression expression)

include he hr

theorem primary_reads : Reads .primary (primary expression) := by
  intro c n c' h hs
  unfold primary at h
  rcases accept?_bind_eq_ok h with ⟨t, ts, hc, hk, h⟩ | ⟨-, h⟩
  · cases h
    refine ⟨.literal (.bool false), ?_, rfl, .refl c⟩
    rw [hc]
    exact .falseWord (by simpa using hk)
  rcases accept?_bind_eq_ok h with ⟨t, ts, hc, hk, h⟩ | ⟨-, h⟩
  · cases h
    refine ⟨.literal (.bool true), ?_, rfl, .refl c⟩
    rw [hc]
    exact .trueWord (by simpa using hk)
  rcases accept?_bind_eq_ok h with ⟨t, ts, hc, hk, h⟩ | ⟨-, h⟩
  · cases h
    refine ⟨.literal .nil, ?_, rfl, .refl c⟩
    rw [hc]
    exact .nilWord (by simpa using hk)
  rcases accept?_bind_eq_ok h with ⟨t, ts, hc, hk, h⟩ | ⟨-, h⟩
  · cases h
    refine ⟨.literal t.literal, ?_, rfl, .refl c⟩
    rw [hc]
    exact .literal hk
  rcases accept?_bind_eq_ok h with ⟨t, ts, hc, hk, h⟩ | ⟨-, h⟩
  · cases h
    refine ⟨.variable t, ?_, rfl, .refl c⟩
    rw [hc]
    exact .name (by simpa using hk)
  rcases accept?_bind_eq_ok h with ⟨t, ts, hc, hk, h⟩ | ⟨-, h⟩
  · obtain ⟨inner, d, hx, h⟩ := bind_eq_ok.mp h
    obtain ⟨r, rs, hd, hkr, h⟩ := expect_bind_eq_ok h
    cases h
    have hreach : d.Reaches (skip [r] rs d) := reaches_skip hd (by simp [hkr])
    obtain ⟨⟨p, hp, rfl, hm⟩, -⟩ := hr.first he hx hreach hs
    exact ⟨.grouping p, hc ▸ .grouping (by simpa using hk) (hd ▸ hp) hkr, rfl, hm⟩
  · obtain ⟨_, d, -, hd⟩ := bind_eq_ok.mp h
    cases hd

end

theorem assigned_of_ne {index : Nat} {e : Token} {target value : Node} (h : ∀ x, target ≠ .variable x) :
    assigned index e target value = (do complain index e .invalidAssignmentTarget; return value) := by
  rw [assigned]
  exact h

theorem assigned_reads {p v : Phrase} {ts mid : List Token} {e : Token} {index : Nat} {c c' : Cursor}
    {n : Node} (hp : Derives true (.operand Ascent.levels) ts (e :: mid) p) (he : e.kind = .equal)
    (hv : Derives true .expression mid c.rest v) (h : assigned index e p.node v.node c = .ok n c') :
    ∃ q ms, Derives true .expression ts c'.rest q ∧ n = q.node ∧ c.Marks c' ms ∧
      q.misassigned = p.misassigned ++ v.misassigned ++ ms := by
  by_cases hname : ∃ t, p = .variable t
  · obtain ⟨t, rfl⟩ := hname
    obtain ⟨rfl, ht⟩ := hp.eq_cons_of_variable
    cases h
    exact ⟨.assign (.variable t) e v, [], .assign ht he hv, rfl, .refl c, by simp [Phrase.misassigned]⟩
  · have hne : ∀ t, p ≠ .variable t := fun t ht => hname ⟨t, ht⟩
    rw [assigned_of_ne (hp.node_ne_variable (.inl ⟨_, rfl⟩) hne)] at h
    cases h
    refine ⟨.assign p e v, [e], .misassign rfl hp hne he hv, (Phrase.node_assign e hne).symm, ?_,
      Phrase.misassigned_assign e hne⟩
    exact ⟨[⟨index, e, .invalidAssignmentTarget⟩], by simp, by simp, rfl⟩

section

variable (turns)

theorem expressions_read (limit : Nat) :
    Reads .expression (expression turns limit) ∧ Reads .expression (assignment turns limit) ∧
      (∀ levels, Reads (.operand levels) (operand turns limit levels)) ∧ Reads .unary (unary turns limit) := by
  induction limit with
  | zero =>
    refine ⟨?_, ?_, fun levels => ?_, ?_⟩ <;> intro c n c' h
    · rw [expression] at h; cases h
    · rw [assignment] at h; cases h
    · rw [operand] at h; cases h
    · rw [unary] at h; cases h
  | succ limit ih =>
    obtain ⟨hre, hra, hro, hru⟩ := ih
    obtain ⟨hoe, hoa, hoo, hou⟩ := orderly_expressions turns limit
    refine ⟨?_, ?_, fun levels => ?_, ?_⟩ <;> intro c n c' h hs
    · rw [expression] at h
      obtain ⟨_, d, hd, h⟩ := bind_eq_ok.mp h
      cases hd
      exact hra { c with events := c.events.push (.entered .expression) } n c' h hs
    · rw [assignment] at h
      obtain ⟨target, d, hx, h⟩ := bind_eq_ok.mp h
      obtain ⟨d', _, hget, h⟩ := bind_eq_ok.mp h
      cases hget
      rcases accept?_bind_eq_ok h with ⟨e, ts, hd, hk, h⟩ | ⟨-, h⟩
      · obtain ⟨value, f, hy, h⟩ := bind_eq_ok.mp h
        have he : e.kind = .equal := by simpa using hk
        have hskip : d.Reaches (skip [e] ts d) := reaches_skip hd (by simp [he])
        have hf : f.Reaches c' := Orderly.reaches (orderly_assigned _ _ _ _ : Orderly turns _) h
        have hdc : d.Reaches c' := hskip.trans ((hoa.reaches hy).trans hf)
        obtain ⟨⟨p, hp, rfl, hm⟩, hs⟩ := hro _ |>.first (hoo _) hx hdc hs
        obtain ⟨⟨v, hv, rfl, hm'⟩, -⟩ := hra.first hoa hy hf hs
        obtain ⟨q, ms, hq, hn, hmq, hmis⟩ := assigned_reads (hd ▸ hp) he hv h
        exact ⟨q, hq, hn, hmis ▸ (hm.trans hm').trans hmq⟩
      · cases h
        obtain ⟨p, hp, hn, hm⟩ := hro _ c _ _ hx hs
        exact ⟨p, .joinedAll hp, hn, hm⟩
    · cases levels with
      | nil =>
        rw [operand] at h
        obtain ⟨p, hp, hn, hm⟩ := hru c n c' h hs
        exact ⟨p, .tightest hp, hn, hm⟩
      | cons level tighter =>
        rw [operand] at h
        obtain ⟨left, d, hx, h⟩ := bind_eq_ok.mp h
        have hd : d.Reaches c' := (orderly_chain (hoo tighter) turns left (Nat.le_refl turns)).reaches h
        obtain ⟨⟨p, hp, rfl, hm⟩, hs⟩ := (hro tighter).first (hoo tighter) hx hd hs
        obtain ⟨q, ms, hq, hn, hmq, hmis⟩ :=
          chain_reads (hoo tighter) (hro tighter) turns (Nat.le_refl turns) _ p d n c' (.single hp) h hs
        exact ⟨q, hq, hn, hmis ▸ hm.trans hmq⟩
    · rw [unary] at h
      rcases accept?_bind_eq_ok h with ⟨o, ts, hc, hk, h⟩ | ⟨-, h⟩
      · obtain ⟨right, d, hx, h⟩ := bind_eq_ok.mp h
        cases h
        obtain ⟨p, hp, rfl, hm⟩ := hru _ _ _ hx hs
        exact ⟨.unary o p, hc ▸ .unary hk hp, rfl, hm⟩
      · obtain ⟨p, hp, hn, hm⟩ := primary_reads hoe hre c n c' h hs
        exact ⟨p, .primary hp, hn, hm⟩

theorem expression_reads (limit : Nat) : Reads .expression (expression turns limit) :=
  (expressions_read turns limit).1

end

section

variable {expression statement : Parse Node} (he : Orderly turns expression) (hr : Reads .expression expression)

include he hr

theorem varDeclaration_reads : ReadsBehind .varWord .varDeclaration (varDeclaration expression) := by
  intro v hv c n c' h hs
  unfold varDeclaration at h
  obtain ⟨name, ts, hc, hk, h⟩ := expect_bind_eq_ok h
  rcases accept?_bind_eq_ok h with ⟨e, us, hc', hke, h⟩ | ⟨-, h⟩
  · obtain ⟨value, d, hx, h⟩ := bind_eq_ok.mp h
    obtain ⟨s, ss, hd, hks, h⟩ := expect_bind_eq_ok h
    cases h
    have hreach : d.Reaches (skip [s] ss d) := reaches_skip hd (by simp [hks])
    obtain ⟨⟨p, hp, rfl, hm⟩, -⟩ := hr.first he hx hreach hs
    refine ⟨.var name p, ?_, rfl, hm⟩
    rw [hc]
    change ts = e :: us at hc'
    rw [hc']
    exact .varInitialized hv hk (by simpa using hke) (hd ▸ hp) hks
  · obtain ⟨s, ss, hd, hks, h⟩ := expect_bind_eq_ok h
    cases h
    refine ⟨.var name .absent, ?_, rfl, .refl c⟩
    rw [hc]
    change ts = s :: ss at hd
    rw [hd]
    exact .varAbsent hv hk hks

theorem expressionStatement_reads : Reads .expressionStatement (expressionStatement expression) := by
  intro c n c' h hs
  obtain ⟨e, d, hx, h⟩ := bind_eq_ok.mp h
  obtain ⟨s, ss, hd, hk, h⟩ := expect_bind_eq_ok h
  cases h
  have hreach : d.Reaches (skip [s] ss d) := reaches_skip hd (by simp [hk])
  obtain ⟨⟨p, hp, rfl, hm⟩, -⟩ := hr.first he hx hreach hs
  exact ⟨.expression p, .expressionStatement (hd ▸ hp) hk, rfl, hm⟩

theorem printStatement_reads : ReadsBehind .printWord .statement (printStatement expression) := by
  intro k hk c n c' h hs
  obtain ⟨e, d, hx, h⟩ := bind_eq_ok.mp h
  obtain ⟨s, ss, hd, hks, h⟩ := expect_bind_eq_ok h
  cases h
  have hreach : d.Reaches (skip [s] ss d) := reaches_skip hd (by simp [hks])
  obtain ⟨⟨p, hp, rfl, hm⟩, -⟩ := hr.first he hx hreach hs
  exact ⟨.print p, .print hk (hd ▸ hp) hks, rfl, hm⟩

theorem forInitializer_reads {c c' : Cursor} {o : Option Node} (h : forInitializer expression c = .ok o c')
    (hs : c.Spares c') :
    ∃ p, Derives true .forInitializer c.rest c'.rest p ∧ o = p.node? ∧ c.Marks c' p.misassigned := by
  unfold forInitializer at h
  rcases accept?_bind_eq_ok h with ⟨s, ss, hc, hk, h⟩ | ⟨-, h⟩
  · cases h
    exact ⟨.absent, hc ▸ .initializerAbsent (by simpa using hk), rfl, .refl c⟩
  rcases accept?_bind_eq_ok h with ⟨v, vs, hc, hk, h⟩ | ⟨-, h⟩
  · obtain ⟨n, d, hx, h⟩ := bind_eq_ok.mp h
    cases h
    obtain ⟨p, hp, rfl, hm⟩ := varDeclaration_reads he hr v (by simpa using hk) _ _ _ hx hs
    have hp' := hp.isAbsent_eq_false (by simp) (by simp)
    exact ⟨p, hc ▸ .initializerVar hp, by simp [Phrase.node?, hp'], hm⟩
  · obtain ⟨n, d, hx, h⟩ := bind_eq_ok.mp h
    cases h
    obtain ⟨p, hp, rfl, hm⟩ := expressionStatement_reads he hr _ _ _ hx hs
    have hp' := hp.isAbsent_eq_false (by simp) (by simp)
    exact ⟨p, .initializerExpression hp, by simp [Phrase.node?, hp'], hm⟩

theorem forClause_reads {closing : Kind} {e : Expected} (hclosing : closing ≠ .eof) {c c' : Cursor}
    {o : Option Node} (h : forClause expression closing e c = .ok o c') (hs : c.Spares c') :
    ∃ t p, Derives true .clause c.rest (t :: c'.rest) p ∧ t.kind = closing ∧ o = p.node? ∧
      c.Marks c' p.misassigned := by
  unfold forClause at h
  obtain ⟨t, d, hpeek, hb⟩ := bind_eq_ok.mp h
  have hd : d = c := by
    unfold peek at hpeek
    split at hpeek
    · cases hpeek
    · cases hpeek; rfl
  clear h
  subst hd
  split at hb
  · obtain ⟨s, ss, hc, hk, h⟩ := expect_bind_eq_ok hb
    cases h
    exact ⟨s, .absent, hc ▸ .clauseAbsent, hk, rfl, .refl d⟩
  · obtain ⟨o', f, hx, h⟩ := bind_eq_ok.mp hb
    obtain ⟨n, f', hx, hmap⟩ := bind_eq_ok.mp hx
    cases hmap
    obtain ⟨s, ss, hf, hk, h⟩ := expect_bind_eq_ok h
    cases h
    have hreach : f.Reaches (skip [s] ss f) := reaches_skip hf (by simp [hk, hclosing])
    obtain ⟨⟨p, hp, rfl, hm⟩, -⟩ := hr.first he hx hreach hs
    have hp' := hp.isAbsent_eq_false (by simp) (by simp)
    exact ⟨s, p, .clausePresent (hf ▸ hp), hk, by simp [Phrase.node?, hp'], hm⟩

variable {statement : Parse Node} (hos : Orderly turns statement) (hrs : Reads .statement statement)

include hos hrs

theorem forStatement_reads : ReadsBehind .forWord .statement (forStatement expression statement) := by
  intro k hk c n c' h hs
  unfold forStatement at h
  obtain ⟨l, ls, hc, hkl, h⟩ := expect_bind_eq_ok h
  obtain ⟨i, d, hi, h⟩ := bind_eq_ok.mp h
  obtain ⟨cond, f, hcond, h⟩ := bind_eq_ok.mp h
  obtain ⟨inc, g, hinc, h⟩ := bind_eq_ok.mp h
  obtain ⟨b, g', hb, h⟩ := bind_eq_ok.mp h
  cases h
  have hgc : g.Reaches c' := hos.reaches hb
  have hfc : f.Reaches c' := ((orderly_forClause he _ _).reaches hinc).trans hgc
  have hdc : d.Reaches c' := ((orderly_forClause he _ _).reaches hcond).trans hfc
  have hs : (skip [l] ls c).Spares c' := hs
  obtain ⟨hs₁, hs⟩ := hs.split ((orderly_forInitializer he).reaches hi) hdc
  obtain ⟨hs₂, hs⟩ := hs.split ((orderly_forClause he _ _).reaches hcond) hfc
  obtain ⟨hs₃, hs⟩ := hs.split ((orderly_forClause he _ _).reaches hinc) hgc
  obtain ⟨p₁, hp₁, rfl, hm₁⟩ := forInitializer_reads he hr hi hs₁
  obtain ⟨s, p₂, hp₂, hks, rfl, hm₂⟩ := forClause_reads he hr (by simp) hcond hs₂
  obtain ⟨r, p₃, hp₃, hkr, rfl, hm₃⟩ := forClause_reads he hr (by simp) hinc hs₃
  obtain ⟨p₄, hp₄, rfl, hm₄⟩ := hrs _ _ _ hb hs
  refine ⟨.forLoop p₁ p₂ p₃ p₄, ?_, rfl, ?_⟩
  · rw [hc]
    exact .forLoop hk hkl hp₁ hp₂ hks hp₃ hkr hp₄
  · rw [Phrase.misassigned]
    exact ((hm₁.trans hm₂).trans hm₃).trans hm₄

theorem ifStatement_reads : ReadsBehind .ifWord .statement (ifStatement expression statement) := by
  intro k hk c n c' h hs
  unfold ifStatement at h
  obtain ⟨l, ls, hc, hkl, h⟩ := expect_bind_eq_ok h
  obtain ⟨cond, d, hx, h⟩ := bind_eq_ok.mp h
  obtain ⟨r, rs, hd, hkr, h⟩ := expect_bind_eq_ok h
  obtain ⟨a, f, ha, h⟩ := bind_eq_ok.mp h
  have hskip : d.Reaches (skip [r] rs d) := reaches_skip hd (by simp [hkr])
  rcases accept?_bind_eq_ok h with ⟨e, es, hf, hke, h⟩ | ⟨hnext, h⟩
  · obtain ⟨b, g, hb, h⟩ := bind_eq_ok.mp h
    cases h
    have hkelse : e.kind = .elseWord := by simpa using hke
    have hfg : f.Reaches c' := (reaches_skip hf (by simp [hkelse])).trans (hos.reaches hb)
    obtain ⟨⟨p₁, hp₁, rfl, hm₁⟩, hs⟩ := hr.first he hx (hskip.trans ((hos.reaches ha).trans hfg)) hs
    obtain ⟨⟨p₂, hp₂, rfl, hm₂⟩, hs⟩ := hrs.first hos ha hfg hs
    obtain ⟨p₃, hp₃, rfl, hm₃⟩ := hrs _ _ _ hb hs
    refine ⟨.branch p₁ p₂ p₃, ?_, rfl, (hm₁.trans hm₂).trans hm₃⟩
    rw [hc]
    exact .ifElse hk hkl (hd ▸ hp₁) hkr (hf ▸ hp₂) hkelse hp₃
  · cases h
    obtain ⟨⟨p₁, hp₁, rfl, hm₁⟩, hs⟩ := hr.first he hx (hskip.trans (hos.reaches ha)) hs
    obtain ⟨p₂, hp₂, rfl, hm₂⟩ := hrs _ _ _ ha hs
    refine ⟨.branch p₁ p₂ .absent, ?_, rfl, ?_⟩
    · rw [hc]
      exact .ifOnly hk hkl (hd ▸ hp₁) hkr hp₂ (hnext _ (by simp) (by simp))
    · have hm : c.Marks c' (p₁.misassigned ++ p₂.misassigned) := hm₁.trans hm₂
      simpa [Phrase.misassigned] using hm

theorem whileStatement_reads : ReadsBehind .whileWord .statement (whileStatement expression statement) := by
  intro k hk c n c' h hs
  unfold whileStatement at h
  obtain ⟨l, ls, hc, hkl, h⟩ := expect_bind_eq_ok h
  obtain ⟨cond, d, hx, h⟩ := bind_eq_ok.mp h
  obtain ⟨r, rs, hd, hkr, h⟩ := expect_bind_eq_ok h
  obtain ⟨b, f, hb, h⟩ := bind_eq_ok.mp h
  cases h
  have hskip : d.Reaches (skip [r] rs d) := reaches_skip hd (by simp [hkr])
  obtain ⟨⟨p₁, hp₁, rfl, hm₁⟩, hs⟩ := hr.first he hx (hskip.trans (hos.reaches hb)) hs
  obtain ⟨p₂, hp₂, rfl, hm₂⟩ := hrs _ _ _ hb hs
  refine ⟨.loop p₁ p₂, ?_, rfl, hm₁.trans hm₂⟩
  rw [hc]
  exact .loop hk hkl (hd ▸ hp₁) hkr hp₂

end

def ReadsDeclaration (part : Parse (Option Node)) : Prop :=
  ∀ c o c', part c = .ok o c' → c.Spares c' →
    ∃ p, Derives true .declaration c.rest c'.rest p ∧ o = some p.node ∧ c.Marks c' p.misassigned

theorem recover_reads {part : Parse Node} (ho : Orderly turns part) (hr : Reads .declaration part) :
    ReadsDeclaration (recover part) := by
  intro c o c' h hs
  have hc := ho c
  unfold recover at h
  have hsync : ∀ d : Cursor, (do synchronize; return none : Parse (Option Node)) d = .ok o c' → d.Reaches c' :=
    fun d hd => Orderly.reaches (orderly_synchronize.bind fun _ => .pure none : Orderly turns _) hd
  cases hp : part c with
  | ok n d =>
    rw [hp] at h
    cases h
    obtain ⟨p, hp', rfl, hm⟩ := hr c n c' hp hs
    exact ⟨p, hp', rfl, hm⟩
  | error e d =>
    rw [hp] at h hc
    cases e with
    | complained => exact absurd (hs.split hc.1 (hsync d h)).1 hc.2.not_spares
    | tooDeep =>
      obtain ⟨_, f, hf, h⟩ := bind_eq_ok.mp h
      cases hd : d.rest with
      | nil => simp [complainHere, hd] at hf
      | cons t ts =>
        simp only [complainHere, hd] at hf
        cases hf
        have hb : d.Blames { d with complaints := d.complaints.push ⟨d.taken, t, .nestingTooDeep⟩ } :=
          ⟨[], ⟨d.taken, t, .nestingTooDeep⟩, by simp, by simp⟩
        have hreach := reaches_complain d.taken t .nestingTooDeep d
        obtain ⟨-, hs⟩ := hs.split hc (hreach.trans (hsync _ h))
        exact absurd (hs.split hreach (hsync _ h)).1 hb.not_spares
    | noEnd => cases h

theorem untilKind_reads {kinds : List Kind} {part : Parse (Option Node)}
    (ho : ∀ n before, n ≤ turns → Orderly n (untilKind kinds part n before)) (hp : Orderly turns part)
    (hr : ReadsDeclaration part) :
    ∀ n, n ≤ turns → ∀ before c ns c', untilKind kinds part n before c = .ok ns c' → c.Spares c' →
      ∃ ps t ts, Derives true .declarations c.rest c'.rest (.block ps) ∧
        ns = before.reverse ++ Phrase.nodes ps ∧ c.Marks c' (Phrase.misassignedAll ps) ∧
        c'.rest = t :: ts ∧ t.kind ∈ kinds := by
  intro n
  induction n with
  | zero =>
    intro _ before c ns c' h
    cases h
  | succ n ih =>
    intro hn before c ns c' h hs
    rw [untilKind, bind_apply, peek] at h
    cases hc : c.rest with
    | nil => simp [hc] at h
    | cons t ts =>
      simp only [hc] at h
      split at h
      · rename_i hk
        cases h
        exact ⟨[], t, ts, hc ▸ .noDeclaration, by simp [Phrase.nodes], .refl c, hc, hk⟩
      · obtain ⟨o, d, ho', h⟩ := bind_eq_ok.mp h
        obtain ⟨hs₁, hs₂⟩ := hs.split (hp.reaches ho') ((ho n _ (by omega)).reaches h)
        obtain ⟨p, hp', rfl, hm⟩ := hr c o d ho' hs₁
        obtain ⟨ps, u, us, hps, hns, hms, hu, hk⟩ := ih (by omega) _ d ns c' h hs₂
        refine ⟨p :: ps, u, us, hc ▸ .moreDeclarations hp' hps, ?_, hm.trans hms, hu, hk⟩
        simp [hns, Phrase.nodes]

theorem block_reads {declaration : Parse (Option Node)}
    (ho : ∀ n before, n ≤ turns → Orderly n (untilKind [.rightBrace, .eof] declaration n before))
    (hp : Orderly turns declaration) (hr : ReadsDeclaration declaration) :
    ReadsBehind .leftBrace .statement (block turns declaration) := by
  intro k hk c n c' h hs
  obtain ⟨ns, d, hd, h⟩ := bind_eq_ok.mp h
  obtain ⟨r, rs, hd', hkr, h⟩ := expect_bind_eq_ok h
  cases h
  have hreach : d.Reaches (skip [r] rs d) := reaches_skip hd' (by simp [hkr])
  obtain ⟨hs, -⟩ := hs.split ((ho turns [] (Nat.le_refl _)).reaches hd) hreach
  obtain ⟨ps, -, -, hps, rfl, hm, -⟩ := untilKind_reads ho hp hr turns (Nat.le_refl _) [] c ns d hd hs
  exact ⟨.block ps, .block hk (hd' ▸ hps) hkr, rfl, hm⟩

section

variable (turns)

theorem statements_read (limit : Nat) :
    Reads .statement (statement turns limit) ∧ ReadsDeclaration (declaration turns limit) := by
  induction limit with
  | zero =>
    refine ⟨?_, ?_⟩ <;> intro c n c' h
    · rw [statement] at h; cases h
    · rw [declaration] at h; cases h
  | succ limit ih =>
    obtain ⟨hrs, hrd⟩ := ih
    obtain ⟨⟨hos, -⟩, hod, -⟩ := orderly_statements turns limit
    have he := orderly_expression turns limit
    have hr := expression_reads turns limit
    refine ⟨?_, ?_⟩
    · intro c n c' h hs
      rw [statement] at h
      obtain ⟨_, c₀, hen, h⟩ := bind_eq_ok.mp h
      cases hen
      rcases accept?_bind_eq_ok h with ⟨k, ks, hc, hk, h⟩ | ⟨-, h⟩
      · exact hc ▸ forStatement_reads he hr hos hrs k (by simpa using hk) _ n c' h hs
      rcases accept?_bind_eq_ok h with ⟨k, ks, hc, hk, h⟩ | ⟨-, h⟩
      · exact hc ▸ ifStatement_reads he hr hos hrs k (by simpa using hk) _ n c' h hs
      rcases accept?_bind_eq_ok h with ⟨k, ks, hc, hk, h⟩ | ⟨-, h⟩
      · exact hc ▸ printStatement_reads he hr k (by simpa using hk) _ n c' h hs
      rcases accept?_bind_eq_ok h with ⟨k, ks, hc, hk, h⟩ | ⟨-, h⟩
      · exact hc ▸ whileStatement_reads he hr hos hrs k (by simpa using hk) _ n c' h hs
      rcases accept?_bind_eq_ok h with ⟨k, ks, hc, hk, h⟩ | ⟨-, h⟩
      · have hblock := block_reads (orderly_declarations turns _ (by simp) limit) hod hrd
        exact hc ▸ hblock k (by simpa using hk) _ n c' h hs
      · obtain ⟨p, hp, hn, hm⟩ := expressionStatement_reads he hr _ n c' h hs
        exact ⟨p, .expressed hp, hn, hm⟩
    · intro c o c' h hs
      rw [declaration] at h
      obtain ⟨_, c₀, hen, h⟩ := bind_eq_ok.mp h
      cases hen
      have ho : Orderly turns (do
          if (← accept? [.varWord]).isSome then return ← varDeclaration (expression turns limit)
          statement turns limit) :=
        (orderly_accept? _).bind fun _ => .ite (orderly_varDeclaration he) hos
      refine recover_reads ho ?_ { c with events := c.events.push (.entered .declaration) } o c' h hs
      intro c n c' h hs
      rcases accept?_bind_eq_ok h with ⟨k, ks, hc, hk, h⟩ | ⟨-, h⟩
      · obtain ⟨p, hp, hn, hm⟩ := varDeclaration_reads he hr k (by simpa using hk) _ n c' h hs
        exact ⟨p, hc ▸ .varDeclared hp, hn, hm⟩
      · obtain ⟨p, hp, hn, hm⟩ := hrs c n c' h hs
        exact ⟨p, .stated hp, hn, hm⟩

end

theorem derives_of_program {limit : Nat} {tokens : List Token} {ns : List Node} {c : Cursor}
    (h : program limit tokens = .ok ns c)
    (hc : ∀ x ∈ c.complaints.toList, x.problem = .invalidAssignmentTarget) :
    ∃ ps t ts, Derives true .declarations tokens (t :: ts) (.block ps) ∧ t.kind = .eof ∧
      ns = Phrase.nodes ps ∧ c.complaints.toList.map Complaint.token = Phrase.misassignedAll ps := by
  have hs : (Cursor.start tokens).Spares c := ⟨_, c.complaints.toList, by simp [Cursor.start], hc, rfl⟩
  obtain ⟨ps, t, ts, hps, hns, ⟨cs, hcs, -, hm⟩, ht, hk⟩ :=
    untilKind_reads (orderly_declarations _ _ (by simp) limit) (orderly_statements _ limit).2.1
      (statements_read _ limit).2 _ (Nat.le_refl _) [] _ ns c h hs
  rw [ht] at hps
  refine ⟨ps, t, ts, hps, by simpa using hk, by simpa using hns, ?_⟩
  rw [hcs]
  simpa [Cursor.start] using hm

end Descent

end Lox
