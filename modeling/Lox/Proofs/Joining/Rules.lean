import Lox.Proofs.Joining.Phrases
import Lox.Proofs.Recovery.Programs

namespace Lox

open Grammar Parse

namespace Parse

variable {α β : Type}

structure Carries (e : Token) (ws : List Token) (inner : Bool) (x y : Parse α) : Prop where
  orderly : Orderly 0 x
  carries : ∀ c c' a d us vs, c.rest = us ++ [e] → c'.rest = us ++ ws → x c = .ok a d → d.complaints = c.complaints →
    d.rest = vs ++ [e] → (inner = true → vs ≠ []) →
    ∃ d', y c' = .ok a d' ∧ d'.rest = vs ++ ws ∧ d'.complaints = c'.complaints

structure Closes (e : Token) (ws : List Token) (x y : Parse α) : Prop extends Carries e ws false x y where
  consumes : Consumes x

variable {e : Token} {ws : List Token}

namespace Carries

variable {i j : Bool} {x y : Parse α} {f g : α → Parse β}

theorem inner (h : Carries e ws false x y) : Carries e ws true x y :=
  ⟨h.orderly, fun c c' a d us vs hc hc' hx hcs hd _ => h.carries c c' a d us vs hc hc' hx hcs hd nofun⟩

theorem bind_of (h : Carries e ws i x y) (hf : ∀ a, Carries e ws j (f a) (g a))
    (hi : i = true → j = true ∨ ∀ a, Consumes (f a)) : Carries e ws j (x >>= f) (y >>= g) := by
  refine ⟨h.orderly.bind fun a => (hf a).orderly, fun c c' b d us vs hc hc' hb hcs hd hj => ?_⟩
  obtain ⟨a, m, hxa, hfa⟩ := bind_eq_ok.mp hb
  have hcm := h.orderly.reaches hxa
  have hmd := (hf a).orderly.reaches hfa
  have hm : m.complaints = c.complaints := by
    have hdc := hcs ▸ hmd.complaints
    exact Array.toList_inj.mp (hcm.complaints.eq_of_length_le hdc.length_le).symm
  obtain ⟨ts, hts, -⟩ := hmd.tokens
  have hmrest : m.rest = (ts ++ vs) ++ [e] := by rw [hts, hd, List.append_assoc]
  have hne : i = true → ts ++ vs ≠ [] := by
    intro hit
    rcases hi hit with hjt | hconsumes
    · exact List.append_ne_nil_of_right_ne_nil ts (hj hjt)
    · have hlt := hconsumes a m b d hfa
      rw [hts, List.length_append] at hlt
      exact List.append_ne_nil_of_left_ne_nil (List.ne_nil_of_length_pos (by omega)) vs
  obtain ⟨m', hy, hm', hcs'⟩ := h.carries c c' a m us _ hc hc' hxa hm hmrest hne
  obtain ⟨d', hg, hd', hds'⟩ := (hf a).carries m m' b d _ vs hmrest hm' hfa (hcs.trans hm.symm) hd hj
  exact ⟨d', bind_eq_ok.mpr ⟨a, m', hy, hg⟩, hd', hds'.trans hcs'⟩

theorem bind (h : Carries e ws i x y) (hf : ∀ a, Carries e ws i (f a) (g a)) : Carries e ws i (x >>= f) (y >>= g) :=
  h.bind_of hf .inl

theorem closes (h : Carries e ws true x y) (hf : ∀ a, Closes e ws (f a) (g a)) : Closes e ws (x >>= f) (y >>= g) :=
  ⟨h.bind_of (fun a => (hf a).toCarries) fun _ => .inr fun a => (hf a).consumes,
    Consumes.bind_right 0 h.orderly fun a => (hf a).consumes⟩

theorem pure (a : α) : Carries e ws i (pure a) (pure a) := by
  refine ⟨.pure a, fun c c' b d us vs hc hc' h _ hd _ => ?_⟩
  cases h
  exact ⟨c', rfl, by rw [hc', List.append_cancel_right (hc.symm.trans hd)], rfl⟩

theorem never (ho : Orderly 0 x) (h : ∀ c a d, x c = .ok a d → d.complaints ≠ c.complaints) : Carries e ws i x y :=
  ⟨ho, fun _ _ _ _ _ _ _ _ hx hcs _ _ => absurd hcs (h _ _ _ hx)⟩

theorem throw (e' : Halt) (ho : Orderly 0 (throw e' : Parse α)) : Carries e ws i (throw e') y :=
  .never ho fun _ _ _ h => by cases h

theorem enter (r : Rule) : Carries e ws i (enter r) (enter r) := by
  refine ⟨orderly_enter r, fun c c' b d us vs hc hc' h _ hd _ => ?_⟩
  cases h
  exact ⟨_, rfl, by rw [← List.append_cancel_right (hc.symm.trans hd)]; exact hc', rfl⟩

theorem taken {f g : Nat → Parse α} (h : ∀ n n', Carries e ws i (f n) (g n')) :
    Carries e ws i (do let c ← get; f c.taken) (do let c ← get; g c.taken) :=
  ⟨fun c => (h c.taken c.taken).orderly c, fun c c' => (h c.taken c'.taken).carries c c'⟩

theorem ite {p : Prop} [Decidable p] {x' y' : Parse α} (h : Carries e ws i x y) (h' : Carries e ws i x' y') :
    Carries e ws i (if p then x else x') (if p then y else y') := by
  split
  · exact h
  · exact h'

theorem of_cons (ho : Orderly 0 x) (hi : i = true ∨ Consumes x)
    (h : ∀ c c' a d t us vs, c.rest = t :: (us ++ [e]) → c'.rest = t :: (us ++ ws) → x c = .ok a d →
      d.complaints = c.complaints → d.rest = vs ++ [e] → (i = true → vs ≠ []) →
      ∃ d', y c' = .ok a d' ∧ d'.rest = vs ++ ws ∧ d'.complaints = c'.complaints) : Carries e ws i x y := by
  refine ⟨ho, fun c c' a d us vs hc hc' hx hcs hd hvs => ?_⟩
  cases us with
  | cons t us => exact h c c' a d t us vs hc hc' hx hcs hd hvs
  | nil =>
    have hlen := (ho.reaches hx).length_le
    rw [hc, hd, List.nil_append, List.length_append] at hlen
    rcases hi with hi | hi
    · have := List.length_pos_iff.mpr (hvs hi)
      omega
    · have hlt := hi c a d hx
      rw [hc, hd, List.nil_append, List.length_append] at hlt
      omega

theorem accept?_of {kinds : List Kind} {f g : Option Token → Parse β} (hi : i = true ∨ Consumes (accept? kinds >>= f))
    (hsome : ∀ t, Carries e ws i (f (some t)) (g (some t))) (hnone : Carries e ws i (f none) (g none)) :
    Carries e ws i (accept? kinds >>= f) (accept? kinds >>= g) := by
  refine .of_cons (orderly_accept?_bind (fun t => (hsome t).orderly) hnone.orderly) hi
    fun c c' a d t us vs hc hc' hx hcs hd hvs => ?_
  rw [bind_apply, accept?_cons kinds hc] at hx
  rw [bind_apply, accept?_cons kinds hc']
  by_cases ht : t.kind ≠ .eof ∧ t.kind ∈ kinds
  · rw [if_pos ht] at hx ⊢
    exact (hsome t).carries _ _ a d us vs rfl rfl hx hcs hd hvs
  · rw [if_neg ht] at hx ⊢
    exact hnone.carries c c' a d (t :: us) vs hc hc' hx hcs hd hvs

theorem accept?_bind {kinds : List Kind} {f g : Option Token → Parse β}
    (hsome : ∀ t, Carries e ws true (f (some t)) (g (some t))) (hnone : Carries e ws true (f none) (g none)) :
    Carries e ws true (accept? kinds >>= f) (accept? kinds >>= g) :=
  accept?_of (.inl rfl) hsome hnone

theorem peek_of {f g : Token → Parse β} (hi : i = true ∨ Consumes (peek >>= f))
    (h : ∀ t, Carries e ws i (f t) (g t)) : Carries e ws i (peek >>= f) (peek >>= g) := by
  refine .of_cons (orderly_peek.bind fun t => (h t).orderly) hi fun c c' a d t us vs hc hc' hx => ?_
  rw [peek_bind hc] at hx
  rw [peek_bind hc']
  exact (h t).carries c c' a d (t :: us) vs hc hc' hx

theorem accept?_else (he : e.kind = .eof) (hws : ∃ w vs, ws = w :: vs ∧ w.kind ≠ .elseWord) {f g : Option Token → Parse β}
    (hsome : ∀ t, Carries e ws false (f (some t)) (g (some t))) (hnone : Carries e ws false (f none) (g none)) :
    Carries e ws false (accept? [.elseWord] >>= f) (accept? [.elseWord] >>= g) := by
  refine ⟨orderly_accept?_bind (fun t => (hsome t).orderly) hnone.orderly, fun c c' a d us vs hc hc' hx hcs hd hvs => ?_⟩
  cases us with
  | cons t us =>
    rw [bind_apply, accept?_cons [.elseWord] hc] at hx
    rw [bind_apply, accept?_cons [.elseWord] hc']
    by_cases ht : t.kind ≠ .eof ∧ t.kind ∈ [Kind.elseWord]
    · rw [if_pos ht] at hx ⊢
      exact (hsome t).carries _ _ a d us vs rfl rfl hx hcs hd hvs
    · rw [if_neg ht] at hx ⊢
      exact hnone.carries c c' a d (t :: us) vs hc hc' hx hcs hd hvs
  | nil =>
    obtain ⟨w, rest, hw, hne⟩ := hws
    have hend : ¬ (e.kind ≠ .eof ∧ e.kind ∈ [Kind.elseWord]) := fun h => h.1 he
    have hnot : ¬ (w.kind ≠ .eof ∧ w.kind ∈ [Kind.elseWord]) := fun h => hne (List.mem_singleton.mp h.2)
    rw [bind_apply, accept?_cons [.elseWord] hc, if_neg hend] at hx
    rw [bind_apply, accept?_cons [.elseWord] (hc'.trans hw), if_neg hnot]
    exact hnone.carries c c' a d [] vs hc hc' hx hcs hd hvs

end Carries

namespace Closes

variable {x y : Parse α} {f g : α → Parse β}

theorem bind (h : Closes e ws x y) (hf : ∀ a, Carries e ws false (f a) (g a)) : Closes e ws (x >>= f) (y >>= g) :=
  ⟨h.toCarries.bind hf, h.consumes.bind_left 0 fun a => (hf a).orderly⟩

theorem accept?_bind {kinds : List Kind} {f g : Option Token → Parse β}
    (hsome : ∀ t, Carries e ws false (f (some t)) (g (some t))) (hnone : Closes e ws (f none) (g none)) :
    Closes e ws (accept? kinds >>= f) (accept? kinds >>= g) := by
  have hconsumes : Consumes (accept? kinds >>= f) := .accept?_bind 0 (fun t => (hsome t).orderly) hnone.consumes
  exact ⟨.accept?_of (.inr hconsumes) hsome hnone.toCarries, hconsumes⟩

theorem peek_bind {f g : Token → Parse β} (h : ∀ t, Closes e ws (f t) (g t)) : Closes e ws (peek >>= f) (peek >>= g) := by
  have hconsumes : Consumes (peek >>= f) := .bind_right 0 orderly_peek fun t => (h t).consumes
  exact ⟨.peek_of (.inr hconsumes) fun t => (h t).toCarries, hconsumes⟩

theorem ite {p : Prop} [Decidable p] {x' y' : Parse α} (h : Closes e ws x y) (h' : Closes e ws x' y') :
    Closes e ws (if p then x else x') (if p then y else y') := by
  split
  · exact h
  · exact h'

theorem fail {p : Problem} (hp : p ≠ .invalidAssignmentTarget) : Closes e ws (fail p : Parse α) (fail p) := by
  have hnever : ∀ c a d, (Parse.fail p : Parse α) c = .ok a d → False := by
    intro c a d h
    obtain ⟨_, m, -, hm⟩ := bind_eq_ok.mp h
    cases hm
  exact ⟨.never (orderly_fail hp) fun c a d h => (hnever c a d h).elim, .complaint p⟩

theorem expect (kind : Kind) (p : Expected) : Closes e ws (expect kind p) (expect kind p) :=
  accept?_bind (fun t => .pure t) (.fail (by simp))

end Closes

theorem Carries.recover {x y : Parse α} (h : Carries e ws false x y) : Carries e ws false (recover x) (recover y) := by
  refine ⟨orderly_recover h.orderly, fun c c' a d us vs hc hc' hx hcs hd hvs => ?_⟩
  have hsync : ∀ m, c.complaints.toList.length < m.complaints.toList.length →
      (do synchronize; return none : Parse (Option α)) m ≠ .ok a d := by
    intro m hm hok
    have hsyncs : Orderly 0 (do synchronize; return none : Parse (Option α)) := orderly_synchronize.bind fun _ => .pure none
    have hle := (hsyncs.reaches hok).complaints.length_le
    rw [hcs] at hle
    omega
  have ho := h.orderly c
  unfold Parse.recover at hx ⊢
  cases hxc : x c with
  | ok b m =>
    rw [hxc] at hx
    cases hx
    obtain ⟨d', hy, hd', hcs'⟩ := h.carries c c' b d us vs hc hc' hxc hcs hd nofun
    rw [hy]
    exact ⟨d', rfl, hd', hcs'⟩
  | error halt m =>
    rw [hxc] at hx ho
    have hle := ho.reaches.complaints.length_le
    cases halt with
    | noEnd => cases hx
    | complained =>
      obtain ⟨cs, z, hz, -⟩ := ho.2
      exact absurd hx (hsync m (by rw [hz]; simp))
    | tooDeep =>
      obtain ⟨_, m', hm', hok⟩ := bind_eq_ok.mp hx
      unfold complainHere at hm'
      split at hm'
      · cases hm'
      · cases hm'
        refine absurd hok (hsync _ ?_)
        rw [Array.toList_push, List.length_append, List.length_singleton]
        exact Nat.lt_succ_of_le hle

theorem Carries.untilKind {x y : Parse (Option α)} (h : Carries e ws false x y) (kinds : List Kind) :
    ∀ n n' before, n ≤ n' → Carries e ws true (untilKind kinds x n before) (untilKind kinds y n' before) := by
  intro n
  induction n with
  | zero => exact fun n' before _ => .throw .noEnd fun c => noTurn_outcome c
  | succ n ih =>
    intro n' before hn
    obtain ⟨n', rfl⟩ := Nat.exists_eq_add_one.mpr (Nat.zero_lt_of_lt hn)
    exact .peek_of (.inl rfl) fun t => .ite (.pure _) (h.inner.bind fun a? => ih n' _ (Nat.le_of_succ_le_succ hn))

end Parse

namespace Descent

variable {e : Token} {ws : List Token} {expression expression' statement statement' : Parse Node}

theorem chain_carries {level : Level} {operand operand' : Parse Node} (h : Carries e ws true operand operand') :
    ∀ n n' left, n ≤ n' → Carries e ws true (chain level operand n left) (chain level operand' n' left) := by
  intro n
  induction n with
  | zero => exact fun n' left _ => .throw .noEnd fun c => noTurn_outcome c
  | succ n ih =>
    intro n' left hn
    obtain ⟨n', rfl⟩ := Nat.exists_eq_add_one.mpr (Nat.zero_lt_of_lt hn)
    exact .accept?_bind (fun t => h.bind fun right => ih n' _ (Nat.le_of_succ_le_succ hn)) (.pure left)

theorem assigned_carries (i i' : Nat) (equals : Token) (target value : Node) :
    Carries e ws true (assigned i equals target value) (assigned i' equals target value) := by
  by_cases h : ∃ name, target = .variable name
  · obtain ⟨name, rfl⟩ := h
    exact .pure _
  · refine .never (orderly_assigned _ _ _ _) fun c a d hd hcs => ?_
    rw [assigned_of_ne fun name hname => h ⟨name, hname⟩] at hd
    cases hd
    have hsize := congrArg Array.size hcs
    simp at hsize

theorem assignedIf_carries {value value' : Parse Node} (h : Carries e ws true value value') (target : Node) (i i' : Nat) :
    Carries e ws true (assignedIf value target i) (assignedIf value' target i') :=
  .accept?_bind (fun equals => h.bind fun value => assigned_carries i i' equals target value) (.pure target)

theorem primary_carries (h : Carries e ws true expression expression') :
    Carries e ws true (primary expression) (primary expression') := by
  refine .accept?_bind (fun _ => .pure _) (.accept?_bind (fun _ => .pure _) (.accept?_bind (fun _ => .pure _) ?_))
  refine .accept?_bind (fun _ => .pure _) (.accept?_bind (fun _ => .pure _) (.accept?_bind (fun _ => ?_) ?_))
  · exact h.bind fun _ => (Closes.expect _ _).inner.bind fun _ => .pure _
  · exact (Closes.fail (by simp)).inner

theorem expressions_carry {turns turns' : Nat} (hturns : turns ≤ turns') (limit : Nat) :
    Carries e ws true (Descent.expression turns limit) (Descent.expression turns' limit) ∧
      Carries e ws true (assignment turns limit) (assignment turns' limit) ∧
      (∀ levels, Carries e ws true (operand turns limit levels) (operand turns' limit levels)) ∧
      Carries e ws true (unary turns limit) (unary turns' limit) := by
  induction limit with
  | zero =>
    exact ⟨.throw .tooDeep .tooDeep, .throw .tooDeep .tooDeep, fun _ => .throw .tooDeep .tooDeep, .throw .tooDeep .tooDeep⟩
  | succ limit ih =>
    obtain ⟨he, ha, ho, hu⟩ := ih
    refine ⟨(Carries.enter _).bind fun _ => ha, ?_, fun levels => ?_, ?_⟩
    · exact (ho _).bind fun target => .taken fun i i' => assignedIf_carries ha target i i'
    · cases levels with
      | nil => exact hu
      | cons level tighter =>
        exact (ho tighter).bind fun left => chain_carries (ho tighter) turns turns' left hturns
    · exact .accept?_bind (fun operator => hu.bind fun right => .pure _) (primary_carries he)

section

variable (he : Carries e ws true expression expression')

include he

theorem varDeclaration_carries : Closes e ws (varDeclaration expression) (varDeclaration expression') := by
  refine (Closes.expect _ _).inner.closes fun name => ?_
  have hend (n : Node) : Closes e ws (do let _ ← expect .semicolon .semicolonAfterVariable; return Node.var (.token name) n)
      (do let _ ← expect .semicolon .semicolonAfterVariable; return Node.var (.token name) n) :=
    (Closes.expect _ _).bind fun _ => .pure _
  exact .accept?_bind (fun _ => (he.closes hend).toCarries) ((Carries.pure Node.absent).closes hend)

theorem expressionStatement_carries : Closes e ws (expressionStatement expression) (expressionStatement expression') :=
  he.closes fun _ => (Closes.expect _ _).bind fun _ => .pure _

theorem printStatement_carries : Closes e ws (printStatement expression) (printStatement expression') :=
  he.closes fun _ => (Closes.expect _ _).bind fun _ => .pure _

theorem forInitializer_carries : Closes e ws (forInitializer expression) (forInitializer expression') := by
  refine .accept?_bind (fun _ => .pure _) (.accept?_bind (fun _ => ?_) ?_)
  · exact ((varDeclaration_carries he).bind fun _ => .pure _).toCarries
  · exact (expressionStatement_carries he).bind fun _ => .pure _

theorem forClause_carries (closing : Kind) (p : Expected) :
    Closes e ws (forClause expression closing p) (forClause expression' closing p) := by
  have hend (n : Option Node) : Closes e ws (do let _ ← expect closing p; return n) (do let _ ← expect closing p; return n) :=
    (Closes.expect _ _).bind fun _ => .pure _
  refine .peek_bind fun t => .ite ((Carries.pure none).closes hend) ?_
  exact Carries.closes (he.bind fun a => .pure (some a)) hend

variable (hs : Closes e ws statement statement')

include hs

theorem forStatement_carries :
    Closes e ws (forStatement expression statement) (forStatement expression' statement') := by
  refine (Closes.expect _ _).inner.closes fun _ => (forInitializer_carries he).inner.closes fun _ => ?_
  refine (forClause_carries he _ _).inner.closes fun _ => (forClause_carries he _ _).inner.closes fun _ => ?_
  exact hs.bind fun _ => .pure _

theorem whileStatement_carries :
    Closes e ws (whileStatement expression statement) (whileStatement expression' statement') :=
  (Closes.expect _ _).inner.closes fun _ => he.closes fun _ => (Closes.expect _ _).inner.closes fun _ =>
    hs.bind fun _ => .pure _

theorem ifStatement_carries (hend : e.kind = .eof) (hws : ∃ w vs, ws = w :: vs ∧ w.kind ≠ .elseWord) :
    Closes e ws (ifStatement expression statement) (ifStatement expression' statement') := by
  refine (Closes.expect _ _).inner.closes fun _ => he.closes fun _ => (Closes.expect _ _).inner.closes fun _ => ?_
  refine hs.bind fun _ => .accept?_else hend hws (fun _ => ?_) (.pure _)
  exact (hs.bind fun _ => .pure _).toCarries

end

theorem block_carries {turns turns' : Nat} (hturns : turns ≤ turns') {declaration declaration' : Parse (Option Node)}
    (h : Carries e ws false declaration declaration') :
    Closes e ws (block turns declaration) (block turns' declaration') :=
  (h.untilKind _ _ _ _ hturns).closes fun _ => (Closes.expect _ _).bind fun _ => .pure _

theorem statements_carry (hend : e.kind = .eof) (hws : ∃ w vs, ws = w :: vs ∧ w.kind ≠ .elseWord) {turns turns' : Nat}
    (hturns : turns ≤ turns') (limit : Nat) :
    Closes e ws (Descent.statement turns limit) (Descent.statement turns' limit) ∧
      Carries e ws false (declaration turns limit) (declaration turns' limit) := by
  induction limit with
  | zero =>
    refine ⟨⟨.throw .tooDeep .tooDeep, fun c a c' h => ?_⟩, .throw .tooDeep .tooDeep⟩
    cases h
  | succ limit ih =>
    obtain ⟨hs, hd⟩ := ih
    have he : Carries e ws true (Descent.expression turns limit) (Descent.expression turns' limit) :=
      (expressions_carry hturns limit).1
    refine ⟨(Carries.enter _).closes fun _ => ?_, (Carries.enter _).bind fun _ => .recover ?_⟩
    · refine .accept?_bind (fun _ => (forStatement_carries he hs).toCarries) ?_
      refine .accept?_bind (fun _ => (ifStatement_carries he hs hend hws).toCarries) ?_
      refine .accept?_bind (fun _ => (printStatement_carries he).toCarries) ?_
      refine .accept?_bind (fun _ => (whileStatement_carries he hs).toCarries) ?_
      exact .accept?_bind (fun _ => (block_carries hturns hd).toCarries) (expressionStatement_carries he)
    · exact (Closes.accept?_bind (fun _ => (varDeclaration_carries he).toCarries) hs).toCarries

theorem untilKind_ahead {x y : Parse (Option Node)} (h : Carries e ws false x y) (he : e.kind = .eof) (hm : Moves x) :
    ∀ n n' before before' c c' ns d us, c.rest = us ++ [e] → c'.rest = us ++ ws → (∀ t ∈ us, t.kind ≠ .eof) →
      c'.rest.length ≤ n' → untilKind [.eof] x n before c = .ok ns d → d.complaints = c.complaints →
      ∃ as k d', ns = before.reverse ++ as ∧
        untilKind [.eof] y n' before' c' = untilKind [.eof] y k (as.reverse ++ before') d' ∧
        d'.rest = ws ∧ d'.rest.length ≤ k ∧ d'.complaints = c'.complaints := by
  intro n
  induction n with
  | zero =>
    intro n' before before' c c' ns d us _ _ _ _ hx
    cases hx
  | succ n ih =>
    intro n' before before' c c' ns d us hc hc' hus hlen hx hcs
    cases us with
    | nil =>
      rw [untilKind_here hc (by simp [he])] at hx
      cases hx
      exact ⟨[], n', c', by simp, rfl, hc', hlen, rfl⟩
    | cons t us =>
      have ht : t.kind ∉ [Kind.eof] := by simpa using hus t List.mem_cons_self
      obtain ⟨n', rfl⟩ := Nat.exists_eq_add_one.mpr (Nat.lt_of_lt_of_le (by simp [hc']) hlen)
      rw [untilKind, peek_bind hc, if_neg ht] at hx
      rw [untilKind, peek_bind hc', if_neg ht]
      obtain ⟨a, m, hxa, hrest⟩ := bind_eq_ok.mp hx
      have hcm := h.orderly.reaches hxa
      have hmd := (h.untilKind [.eof] n n (a.toList ++ before) (Nat.le_refl n)).orderly.reaches hrest
      have hm₀ : m.complaints = c.complaints := by
        have hdc := hcs ▸ hmd.complaints
        exact Array.toList_inj.mp (hcm.complaints.eq_of_length_le hdc.length_le).symm
      obtain ⟨vs, hmrest, hvs⟩ : ∃ vs, m.rest = vs ++ [e] ∧ ∀ t ∈ vs, t.kind ≠ .eof := by
        obtain ⟨ts, hts, hte, -⟩ := hcm.tokens
        rw [hc] at hts
        rcases List.append_eq_append_iff.mp hts with ⟨as, rfl, has⟩ | ⟨as, hus', has⟩
        · cases as with
          | nil => exact ⟨[], has.symm, by simp⟩
          | cons b bs =>
            rw [List.cons_append, List.cons.injEq] at has
            exact absurd he (hte e (by simp [has.1]))
        · exact ⟨as, has, fun t ht => hus t (by rw [hus']; exact List.mem_append_right _ ht)⟩
      obtain ⟨m', hy, hm', hcs'⟩ := h.carries c c' a m (t :: us) vs hc hc' hxa hm₀ hmrest (by simp)
      have hlt := hm c a m t (by simp [hc]) (hus t List.mem_cons_self) hxa
      rw [hc, hmrest, List.length_append, List.length_append] at hlt
      rw [hc', List.length_append] at hlen
      have hlen' : m'.rest.length ≤ n' := by
        rw [hm', List.length_append]
        omega
      obtain ⟨as, k, d', hns, huntil, hd', hk, hds⟩ :=
        ih n' (a.toList ++ before) (a.toList ++ before') m m' ns d vs hmrest hm' hvs hlen' hrest (hcs.trans hm₀.symm)
      have hreverse : a.toList.reverse = a.toList := by cases a <;> rfl
      refine ⟨a.toList ++ as, k, d', ?_, ?_, hd', hk, hds.trans hcs'⟩
      · rw [hns, List.reverse_append, hreverse, List.append_assoc]
      · rw [bind_apply, hy]
        dsimp only
        rw [huntil, List.reverse_append, hreverse, List.append_assoc]

def Whole (limit : Nat) (ts : List Token) (ns : List Node) : Prop :=
  (∀ t ∈ ts, t.kind ≠ .eof) ∧ ∃ e : Token, e.kind = .eof ∧ Accepting limit (ts ++ [e]) ns

theorem Whole.program {limit : Nat} {ts : List Token} {ns : List Node} (h : Whole limit ts ns) :
    ∃ e ps, Program false (ts ++ [e]) ps := by
  obtain ⟨hts, e, -, hacc⟩ := h
  obtain ⟨ps, hps, -⟩ := program_of_accepting hts hacc
  exact ⟨e, ps, hps⟩

theorem joined_head {limit : Nat} {e : Token} (he : e.kind = .eof) {pieces : List (List Token × List Node)}
    (hpieces : ∀ p ∈ pieces, Whole limit p.1 p.2) :
    ∃ w vs, (pieces.map Prod.fst).flatten ++ [e] = w :: vs ∧ w.kind ≠ .elseWord := by
  have hnext := next?_joined he (List.forall_mem_map.mpr fun p hp => (hpieces p hp).program)
  obtain ⟨w, vs, heq⟩ := List.exists_cons_of_ne_nil (List.concat_ne_nil e (pieces.map Prod.fst).flatten)
  rw [heq] at hnext
  exact ⟨w, vs, heq, fun hw => hnext (congrArg some hw)⟩

theorem untilKind_joined (limit : Nat) {e : Token} (he : e.kind = .eof) {N : Nat} {pieces : List (List Token × List Node)}
    (hpieces : ∀ p ∈ pieces, Whole limit p.1 p.2 ∧ p.1.length < N) :
    ∀ k before c', c'.rest = (pieces.map Prod.fst).flatten ++ [e] → c'.rest.length ≤ k →
      ∃ d, untilKind [.eof] (declaration N limit) k before c' = .ok (before.reverse ++ (pieces.map Prod.snd).flatten) d ∧
        d.complaints = c'.complaints := by
  induction pieces with
  | nil =>
    intro k before c' hc' hlen
    obtain ⟨k, rfl⟩ := Nat.exists_eq_add_one.mpr (Nat.lt_of_lt_of_le (by simp [hc']) hlen)
    exact ⟨c', by rw [untilKind_here hc' (by simp [he])]; simp, rfl⟩
  | cons p pieces ih =>
    intro k before c' hc' hlen
    obtain ⟨hp, hpieces⟩ := List.forall_mem_cons.mp hpieces
    obtain ⟨⟨hts, e', he', c, hprogram, hcs⟩, hN⟩ := hp
    rw [List.map_cons, List.flatten_cons, List.append_assoc] at hc'
    have hws := joined_head he fun q hq => (hpieces q hq).1
    have hturns : (p.1 ++ [e']).length ≤ N := by
      rw [List.length_append, List.length_singleton]
      exact hN
    have hcarries : Carries e' ((pieces.map Prod.fst).flatten ++ [e]) false
        (declaration (p.1 ++ [e']).length limit) (declaration N limit) := (statements_carry he' hws hturns limit).2
    obtain ⟨as, k', d', hns, huntil, hd', hk', hds⟩ := untilKind_ahead hcarries he' (moves_declaration _ _) _ k [] before
      (Cursor.start (p.1 ++ [e'])) c' p.2 c p.1 rfl hc' hts hlen hprogram (by rw [hcs]; rfl)
    obtain ⟨d, hd, hcomplaints⟩ := ih hpieces k' (as.reverse ++ before) d' hd' hk'
    refine ⟨d, ?_, hcomplaints.trans hds⟩
    rw [huntil, hd, List.map_cons, List.flatten_cons, hns]
    simp

theorem accepting_joined {limit : Nat} {pieces : List (List Token × List Node)}
    (hpieces : ∀ p ∈ pieces, Whole limit p.1 p.2) {e : Token} (he : e.kind = .eof) :
    Accepting limit ((pieces.map Prod.fst).flatten ++ [e]) (pieces.map Prod.snd).flatten := by
  have hlengths : ∀ p ∈ pieces, Whole limit p.1 p.2 ∧ p.1.length < ((pieces.map Prod.fst).flatten ++ [e]).length := by
    intro p hp
    have hle := (List.sublist_flatten_of_mem (List.mem_map_of_mem (f := Prod.fst) hp)).length_le
    exact ⟨hpieces p hp, by rw [List.length_append, List.length_singleton]; omega⟩
  obtain ⟨d, hd, hcs⟩ := untilKind_joined limit he hlengths _ [] (Cursor.start _) rfl (Nat.le_refl _)
  exact ⟨d, hd, hcs⟩

end Descent

end Lox
