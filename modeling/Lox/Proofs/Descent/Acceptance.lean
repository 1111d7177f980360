import Lox.Proofs.Descent.Derivation

namespace Lox

open Ascent (Phrase)
open Grammar

namespace Parse

variable {α β : Type} {turns : Nat}

theorem get_bind (f : Cursor → Parse β) (c : Cursor) : (get >>= f) c = f c c := rfl

theorem peek_bind {f : Token → Parse β} {c : Cursor} {t : Token} {ts : List Token} (hc : c.rest = t :: ts) :
    (peek >>= f) c = f t c := by
  rw [bind_apply, peek]
  simp only [hc]

theorem enter_bind (r : Rule) (f : Unit → Parse β) (c : Cursor) :
    (enter r >>= f) c = f () { c with events := c.events.push (.entered r) } := rfl

theorem accept?_bind_of_mem {kinds : List Kind} {f : Option Token → Parse β} {c : Cursor} {t : Token}
    {ts : List Token} (hc : c.rest = t :: ts) (ht : t.kind ∈ kinds) (he : t.kind ≠ .eof) :
    (accept? kinds >>= f) c = f (some t) (skip [t] ts c) := by
  rw [bind_apply, accept?_cons kinds hc, if_pos ⟨he, ht⟩]

theorem accept?_bind_of_not_mem {kinds : List Kind} {f : Option Token → Parse β} {c : Cursor} {t : Token}
    {ts : List Token} (hc : c.rest = t :: ts) (ht : t.kind ∉ kinds) :
    (accept? kinds >>= f) c = f none c := by
  rw [bind_apply, accept?_cons kinds hc, if_neg fun h => ht h.2]

theorem accept?_ite_of_mem {kinds : List Kind} {x y : Parse β} {c : Cursor} {t : Token} {ts : List Token}
    (hc : c.rest = t :: ts) (ht : t.kind ∈ kinds) (he : t.kind ≠ .eof) :
    (do if (← accept? kinds).isSome then x else y) c = x (skip [t] ts c) := by
  rw [accept?_bind_of_mem hc ht he]
  rfl

theorem accept?_ite_of_not_mem {kinds : List Kind} {x y : Parse β} {c : Cursor} {t : Token} {ts : List Token}
    (hc : c.rest = t :: ts) (ht : t.kind ∉ kinds) :
    (do if (← accept? kinds).isSome then x else y) c = y c := by
  rw [accept?_bind_of_not_mem hc ht]
  rfl

theorem expect_bind {kind : Kind} {e : Expected} {f : Token → Parse β} {c : Cursor} {t : Token} {ts : List Token}
    (hc : c.rest = t :: ts) (ht : t.kind = kind) (he : kind ≠ .eof) :
    (expect kind e >>= f) c = f t (skip [t] ts c) := by
  rw [bind_apply, expect, accept?_bind_of_mem hc (by simp [ht]) (ht ▸ he)]
  rfl

def TooDeep (nested : Bool) (r : EStateM.Result Halt Cursor α) : Prop :=
  (∃ d, r = .error .tooDeep d) ∨ nested = true ∧ ∃ x ∈ (final r).complaints.toList, x.problem = .nestingTooDeep

section

variable {x : Parse α} {f : α → Parse β} {c : Cursor}

theorem bind_reaches (ho : ∀ a, Orderly turns (f a)) (x : Parse α) (c : Cursor) :
    (final (x c)).Reaches (final ((x >>= f) c)) := by
  rw [bind_apply]
  cases x c with
  | ok a d => exact (ho a d).reaches
  | error e d => exact .refl d

theorem recover_reaches (x : Parse α) (c : Cursor) : (final (x c)).Reaches (final (recover x c)) := by
  have hsync : Orderly 0 (do synchronize; return none : Parse (Option α)) :=
    orderly_synchronize.bind fun _ => .pure none
  unfold recover
  cases hx : x c with
  | ok a d => exact .refl d
  | error e d =>
    cases e with
    | complained => exact (hsync d).reaches
    | tooDeep =>
      have hdeep : Orderly 0 (do complainHere .nestingTooDeep; synchronize; return none : Parse (Option α)) :=
        (orderly_complainHere _).bind fun _ => hsync
      exact (hdeep d).reaches
    | noEnd => exact .refl d

theorem recover_tooDeep {d : Cursor} {t : Token} {ts : List Token} (hx : x c = .error .tooDeep d) (hd : d.rest = t :: ts) :
    ⟨d.taken, t, .nestingTooDeep⟩ ∈ (final (recover x c)).complaints.toList := by
  have hsync : Orderly 0 (do synchronize; return none : Parse (Option α)) :=
    orderly_synchronize.bind fun _ => .pure none
  have hrec : recover x c = (do synchronize; return none : Parse (Option α))
      { d with complaints := d.complaints.push ⟨d.taken, t, .nestingTooDeep⟩ } := by
    simp only [recover, hx, bind_apply, complainHere, hd, complain]
  rw [hrec]
  exact (hsync _).reaches.complaints.subset (by simp)

theorem tooDeep_bind (h : TooDeep true (x c)) (ho : ∀ a, Orderly turns (f a)) : TooDeep true ((x >>= f) c) := by
  rcases h with ⟨d, hd⟩ | ⟨-, y, hy, hp⟩
  · rw [bind_apply, hd]
    exact .inl ⟨d, rfl⟩
  · exact .inr ⟨rfl, y, (bind_reaches ho x c).complaints.subset hy, hp⟩

theorem tooDeep_recover (ho : Orderly turns x) (he : c.HasEnd) (h : TooDeep true (x c)) : TooDeep true (recover x c) := by
  have hreaches := (ho c).reaches
  refine .inr ⟨rfl, ?_⟩
  rcases h with ⟨d, hd⟩ | ⟨-, y, hy, hp⟩
  · rw [hd] at hreaches
    obtain ⟨t, ts, ht⟩ := List.exists_cons_of_ne_nil (hreaches.rest_ne_nil he)
    exact ⟨_, recover_tooDeep hd ht, rfl⟩
  · exact ⟨y, (recover_reaches x c).complaints.subset hy, hp⟩

end

def Accepts (nested : Bool) (r : EStateM.Result Halt Cursor α) (c : Cursor) (a : α) (rest marks : List Token) :
    Prop :=
  TooDeep nested r ∨ ∃ c', r = .ok a c' ∧ c'.rest = rest ∧ c.Marks c' marks

namespace Accepts

variable {nested : Bool} {c : Cursor} {a : α} {b : β} {mid rest ms ns : List Token} {x : Parse α} {f : α → Parse β}

theorem return_ (h : c.rest = rest) : Accepts nested (.ok a c) c a rest [] :=
  .inr ⟨c, rfl, h, .refl c⟩

theorem of_false (h : Accepts false (x c) c a rest ms) : Accepts true (x c) c a rest ms := by
  rcases h with (h | ⟨h, -⟩) | h
  · exact .inl (.inl h)
  · cases h
  · exact .inr h

theorem bind (hx : Accepts false (x c) c a mid ms)
    (hf : ∀ d, d.rest = mid → Accepts nested (f a d) d b rest ns) :
    Accepts nested ((x >>= f) c) c b rest (ms ++ ns) := by
  rw [bind_apply]
  rcases hx with (⟨d, hd⟩ | ⟨h, -⟩) | ⟨d, hd, hmid, hm⟩
  · rw [hd]
    exact .inl (.inl ⟨d, rfl⟩)
  · cases h
  · rw [hd]
    rcases hf d hmid with h | ⟨d', hd', hrest, hm'⟩
    · exact .inl h
    · exact .inr ⟨d', hd', hrest, hm.trans hm'⟩

theorem then_return {g : α → β} (hx : Accepts false (x c) c a rest ms) :
    Accepts nested ((x >>= fun a => pure (g a)) c) c (g a) rest ms := by
  have h : Accepts nested ((x >>= fun a => pure (g a)) c) c (g a) rest (ms ++ []) :=
    bind (f := fun a => Pure.pure (g a)) hx fun d hd => return_ hd
  rwa [List.append_nil] at h

theorem bind_expect {kind : Kind} {e : Expected} {t : Token} (hx : Accepts false (x c) c a (t :: mid) ms)
    (ht : t.kind = kind) (he : kind ≠ .eof) (hf : ∀ d, d.rest = mid → Accepts nested (f a d) d b rest ns) :
    Accepts nested ((do let a ← x; let _ ← expect kind e; f a) c) c b rest (ms ++ ns) :=
  hx.bind fun d hd => by
    rw [expect_bind hd ht he]
    exact hf (skip [t] mid d) rfl

theorem bind_nested (turns : Nat) (hx : Accepts true (x c) c a mid ms)
    (hf : ∀ d, d.rest = mid → Accepts true (f a d) d b rest ns) (ho : ∀ a, Orderly turns (f a)) :
    Accepts true ((x >>= f) c) c b rest (ms ++ ns) := by
  rcases hx with hdeep | ⟨d, hd, hmid, hm⟩
  · exact .inl (tooDeep_bind hdeep ho)
  · rw [bind_apply, hd]
    rcases hf d hmid with h | ⟨d', hd', hrest, hm'⟩
    · exact .inl h
    · exact .inr ⟨d', hd', hrest, hm.trans hm'⟩

theorem nested_return {g : α → β} (hx : Accepts true (x c) c a rest ms) :
    Accepts true ((x >>= fun a => pure (g a)) c) c (g a) rest ms := by
  have h : Accepts true ((x >>= fun a => pure (g a)) c) c (g a) rest (ms ++ []) :=
    bind_nested 0 hx (fun d hd => return_ hd) fun a => .pure (g a)
  rwa [List.append_nil] at h

theorem recover (hx : Accepts true (x c) c a rest ms) (ho : Orderly turns x) (he : c.HasEnd) :
    Accepts true (recover x c) c (some a) rest ms := by
  rcases hx with hdeep | ⟨d, hd, hrest, hm⟩
  · exact .inl (tooDeep_recover ho he hdeep)
  · refine .inr ⟨d, ?_, hrest, hm⟩
    simp only [Parse.recover, hd]

end Accepts

end Parse

open Parse

namespace Descent

variable {turns : Nat}

def HasEnd (ts : List Token) : Prop :=
  ∃ t ∈ ts, t.kind = .eof

def Chained (turns limit : Nat) (l : Level) (ls : List Level) (c : Cursor) (rest : List Token) (p : Phrase) : Prop :=
  (∃ d, operand turns limit (l :: ls) c = .error .tooDeep d) ∨
    ∃ m n d, limit = m + 1 ∧ rest.length ≤ n ∧ d.rest = rest ∧ c.Marks d p.misassigned ∧
      operand turns limit (l :: ls) c = chain l (operand turns m ls) n p.node d

def Accepted (turns : Nat) (s : Symbol) (ts rest : List Token) (p : Phrase) : Prop :=
  ts.length ≤ turns → ∀ limit c,
    match s with
    | .primary => c.rest = ts → rest ≠ [] → Accepts false (primary (expression turns limit) c) c p.node rest p.misassigned
    | .unary => c.rest = ts → rest ≠ [] → Accepts false (unary turns limit c) c p.node rest p.misassigned
    | .operand [] =>
      c.rest = ts → rest ≠ [] → Accepts false (operand turns limit [] c) c p.node rest p.misassigned
    | .operand (l :: ls) =>
      c.rest = ts → rest ≠ [] → l :: ls <:+ Ascent.levels → NoOperator ls rest → Chained turns limit l ls c rest p
    | .expression => c.rest = ts → Ends rest → Accepts false (assignment turns limit c) c p.node rest p.misassigned
    | .clause => ∀ closing e t us, c.rest = ts → rest = t :: us → t.kind = closing → Ends rest →
        Accepts false (forClause (expression turns limit) closing e c) c p.node? us p.misassigned
    | .forInitializer =>
      c.rest = ts → Accepts false (forInitializer (expression turns limit) c) c p.node? rest p.misassigned
    | .expressionStatement =>
      c.rest = ts → Accepts false (expressionStatement (expression turns limit) c) c p.node rest p.misassigned
    | .varDeclaration => ∀ v us, ts = v :: us → c.rest = us →
        Accepts false (varDeclaration (expression turns limit) c) c p.node rest p.misassigned
    | .statement =>
      c.rest = ts → HasEnd rest → Accepts true (statement turns limit c) c p.node rest p.misassigned
    | .declaration =>
      c.rest = ts → HasEnd rest → Accepts true (declaration turns limit c) c (some p.node) rest p.misassigned
    | .declarations => ∀ ps kinds n before, p = .block ps → c.rest = ts → HasEnd rest →
        (∀ k ∈ kinds, k = .rightBrace ∨ k = .eof) → .eof ∈ kinds → (∃ k ∈ kinds, next? rest = some k) →
        ts.length ≤ n → n ≤ turns →
        Accepts true (untilKind kinds (declaration turns limit) n before c) c (before.reverse ++ Phrase.nodes ps) rest
          (Phrase.misassignedAll ps)

section

variable {ts mid rest : List Token} {l : Level} {ls : List Level} {a b p : Phrase} {o t : Token}

theorem operand_accepts (h : Accepted turns (.operand ls) ts rest p) (hturns : ts.length ≤ turns)
    (hls : ls <:+ Ascent.levels) (hne : rest ≠ []) (hno : NoOperator ls rest) (limit : Nat) {c : Cursor}
    (hc : c.rest = ts) : Accepts false (operand turns limit ls c) c p.node rest p.misassigned := by
  cases ls with
  | nil => exact h hturns limit c hc hne
  | cons l ls =>
    rcases h hturns limit c hc hne hls fun l' hl => hno l' (by simp [hl]) with h | ⟨m, n, d, -, hn, hd, hm, h⟩
    · exact .inl (.inl h)
    · rw [h]
      cases rest with
      | nil => exact absurd rfl hne
      | cons t ts =>
        obtain ⟨n, rfl⟩ : ∃ k, n = k + 1 := ⟨n - 1, by simp at hn; omega⟩
        rw [chain, accept?_bind_of_not_mem hd (hno l (by simp) t.kind (by simp [next?]))]
        exact .inr ⟨d, rfl, hd, hm⟩

theorem accepted_joined (ha : Accepted turns (.operand (l :: ls)) ts (o :: mid) a) (ho : o.kind ∈ l.operators)
    (hb : Accepted turns (.operand ls) mid rest b) (hmid : mid.length < ts.length) (hrest : rest.length ≤ mid.length) :
    Accepted turns (.operand (l :: ls)) ts rest (.joined l a o b) := by
  intro hturns limit c hc hne hls hno
  have heof : o.kind ≠ .eof := by
    have hall : ∀ l ∈ Ascent.levels, .eof ∉ l.operators := by decide
    exact fun he => hall l (hls.subset (by simp)) (he ▸ ho)
  have hnext : NoOperator ls (o :: mid) := by
    intro l' hl k hk
    simp only [next?, List.head?_cons, Option.map_some, Option.mem_some] at hk
    exact hk ▸ Level.not_mem_tighter hls ho hl
  rcases ha hturns limit c hc (by simp) hls hnext with h | ⟨m, n, d, rfl, hn, hd, hm, h⟩
  · exact .inl h
  obtain ⟨n, rfl⟩ : ∃ k, n = k + 1 := ⟨n - 1, by simp at hn; omega⟩
  rw [chain, accept?_bind_of_mem hd ho heof, join_eq_fold] at h
  dsimp only at h
  have hls' : ls <:+ Ascent.levels := (List.suffix_cons l ls).trans hls
  rw [Chained, h, bind_apply]
  rcases operand_accepts hb (by omega) hls' hne hno m (c := skip [o] mid d) rfl with
    (⟨f, hf⟩ | ⟨hf, -⟩) | ⟨f, hf, hrest', hm'⟩
  · rw [hf]
    exact .inl ⟨f, rfl⟩
  · cases hf
  · rw [hf]
    simp only [List.length_cons] at hn
    exact .inr ⟨m, n, f, rfl, by omega, hrest', hm.trans hm', rfl⟩

theorem accepted_single (h : Accepted turns (.operand ls) ts rest p) (hlt : rest.length < ts.length) :
    Accepted turns (.operand (l :: ls)) ts rest p := by
  intro hturns limit c hc hne hls hno
  cases limit with
  | zero => exact .inl ⟨c, by rw [operand]; rfl⟩
  | succ m =>
    rw [Chained, operand, bind_apply]
    rcases operand_accepts h hturns ((List.suffix_cons l ls).trans hls) hne hno m hc with
      (⟨d, hd⟩ | ⟨hd, -⟩) | ⟨d, hd, hrest, hm⟩
    · rw [hd]
      exact .inl ⟨d, rfl⟩
    · cases hd
    · rw [hd]
      exact .inr ⟨m, turns, d, rfl, by omega, hrest, hm, rfl⟩

theorem accepted_tightest (h : Accepted turns .unary ts rest p) : Accepted turns (.operand []) ts rest p := by
  intro hturns limit c hc hne
  cases limit with
  | zero => exact .inl (.inl ⟨c, by rw [operand]; rfl⟩)
  | succ m =>
    rw [operand]
    exact h hturns m c hc hne

theorem accepted_unary (ho : o.kind ∈ [.bang, .minus]) (h : Accepted turns .unary ts rest p) :
    Accepted turns .unary (o :: ts) rest (.unary o p) := by
  intro hturns limit c hc hne
  cases limit with
  | zero => exact .inl (.inl ⟨c, by rw [unary]; rfl⟩)
  | succ m =>
    have heof : o.kind ≠ .eof := by
      intro he
      simp [he] at ho
    rw [unary, accept?_bind_of_mem hc ho heof]
    have hlen : ts.length ≤ turns := by
      simp only [List.length_cons] at hturns
      omega
    exact (h hlen m (skip [o] ts c) rfl hne).then_return

theorem accepted_primary (h : Accepted turns .primary ts rest p) (ht : ∃ t us, ts = t :: us ∧ t.kind ∉ [.bang, .minus]) :
    Accepted turns .unary ts rest p := by
  intro hturns limit c hc hne
  cases limit with
  | zero => exact .inl (.inl ⟨c, by rw [unary]; rfl⟩)
  | succ m =>
    obtain ⟨t, us, rfl, hk⟩ := ht
    rw [unary, accept?_bind_of_not_mem hc hk]
    exact h hturns m c hc hne

theorem expression_accepts (h : Accepted turns .expression ts rest p) (hturns : ts.length ≤ turns)
    (hend : Ends rest) (limit : Nat) {c : Cursor} (hc : c.rest = ts) :
    Accepts false (expression turns limit c) c p.node rest p.misassigned := by
  cases limit with
  | zero => exact .inl (.inl ⟨c, by rw [expression]; rfl⟩)
  | succ m =>
    rw [expression]
    exact h hturns m { c with events := c.events.push (.entered .expression) } hc hend

theorem accepted_literal (ht : t.kind ∈ [.number, .string]) :
    Accepted turns .primary (t :: rest) rest (.literal t.literal) := by
  intro _ limit c hc _
  have hne : ∀ k ∈ [Kind.falseWord, .trueWord, .nilWord, .eof], t.kind ≠ k := by
    intro k hk he
    subst he
    revert ht hk
    cases t.kind <;> decide
  rw [primary, accept?_ite_of_not_mem hc (by simp [hne]), accept?_ite_of_not_mem hc (by simp [hne]),
    accept?_ite_of_not_mem hc (by simp [hne]), accept?_bind_of_mem hc ht (hne _ (by simp))]
  exact .return_ rfl

theorem accepted_word (h : t.kind = .falseWord ∧ p = .literal (.bool false) ∨
    t.kind = .trueWord ∧ p = .literal (.bool true) ∨ t.kind = .nilWord ∧ p = .literal .nil) :
    Accepted turns .primary (t :: rest) rest p := by
  intro _ limit c hc _
  rcases h with ⟨ht, rfl⟩ | ⟨ht, rfl⟩ | ⟨ht, rfl⟩
  · rw [primary, accept?_ite_of_mem hc (by simp [ht]) (by simp [ht])]
    exact .return_ rfl
  · rw [primary, accept?_ite_of_not_mem hc (by simp [ht]), accept?_ite_of_mem hc (by simp [ht]) (by simp [ht])]
    exact .return_ rfl
  · rw [primary, accept?_ite_of_not_mem hc (by simp [ht]), accept?_ite_of_not_mem hc (by simp [ht]),
      accept?_ite_of_mem hc (by simp [ht]) (by simp [ht])]
    exact .return_ rfl

theorem accepted_name (ht : t.kind = .identifier) : Accepted turns .primary (t :: rest) rest (.variable t) := by
  intro _ limit c hc _
  rw [primary, accept?_ite_of_not_mem hc (by simp [ht]), accept?_ite_of_not_mem hc (by simp [ht]),
    accept?_ite_of_not_mem hc (by simp [ht]), accept?_bind_of_not_mem hc (by simp [ht])]
  dsimp only
  rw [accept?_bind_of_mem hc (by simp [ht]) (by simp [ht])]
  exact .return_ rfl

theorem accepted_grouping {r : Token} (ht : t.kind = .leftParen) (h : Accepted turns .expression ts (r :: rest) p)
    (hr : r.kind = .rightParen) : Accepted turns .primary (t :: ts) rest (.grouping p) := by
  intro hturns limit c hc _
  have hlen : ts.length ≤ turns := by
    simp only [List.length_cons] at hturns
    omega
  rw [primary, accept?_ite_of_not_mem hc (by simp [ht]), accept?_ite_of_not_mem hc (by simp [ht]),
    accept?_ite_of_not_mem hc (by simp [ht]), accept?_bind_of_not_mem hc (by simp [ht])]
  dsimp only
  rw [accept?_bind_of_not_mem hc (by simp [ht])]
  dsimp only
  rw [accept?_ite_of_mem hc (by simp [ht]) (by simp [ht])]
  have hx : Accepts false (expression turns limit (skip [t] ts c)) c p.node (r :: rest) p.misassigned :=
    expression_accepts h hlen (ends_of_rightParen hr) limit rfl
  change Accepts false _ c _ rest p.misassigned
  rw [← List.append_nil p.misassigned]
  exact hx.bind_expect hr (by simp) fun d hd => .return_ hd

theorem accepted_joinedAll (h : Accepted turns (.operand Ascent.levels) ts rest p) :
    Accepted turns .expression ts rest p := by
  intro hturns limit c hc hend
  cases limit with
  | zero => exact .inl (.inl ⟨c, by rw [assignment]; rfl⟩)
  | succ m =>
    rw [assignment]
    have hx := operand_accepts h hturns List.suffix_rfl hend.ne_nil hend.noOperator m hc
    rw [← List.append_nil p.misassigned]
    refine hx.bind fun d hd => ?_
    obtain ⟨t, ts, ht⟩ := List.exists_cons_of_ne_nil hend.ne_nil
    rw [get_bind, accept?_bind_of_not_mem (hd.trans ht) (hend.not_mem_equal ht)]
    exact .return_ hd

theorem accepted_assigned (target : Phrase) (ms : List Token) {value : Phrase} {e : Token}
    (ht : ∀ m c, c.rest = ts → Accepts false (operand turns m Ascent.levels c) c target.node (e :: mid) target.misassigned)
    (he : e.kind = .equal) (hv : Accepted turns .expression mid rest value) (hmid : mid.length < ts.length)
    (hset : ∀ index d, d.rest = rest → Accepts false (assigned index e target.node value.node d) d p.node rest ms)
    (hmis : p.misassigned = target.misassigned ++ (value.misassigned ++ ms)) :
    Accepted turns .expression ts rest p := by
  intro hturns limit c hc hend
  cases limit with
  | zero => exact .inl (.inl ⟨c, by rw [assignment]; rfl⟩)
  | succ m =>
    rw [assignment, hmis]
    refine (ht m c hc).bind fun d hd => ?_
    rw [get_bind, accept?_bind_of_mem hd (by simp [he]) (by simp [he])]
    exact (hv (by omega) m (skip [e] mid d) rfl hend).bind fun f hf => hset d.taken f hf

theorem accepted_assign {n e : Token} {v : Phrase} (hn : n.kind = .identifier) (he : e.kind = .equal)
    (hv : Accepted turns .expression mid rest v) :
    Accepted turns .expression (n :: e :: mid) rest (.assign (.variable n) e v) := by
  intro hturns
  have hname : Accepted turns (.operand Ascent.levels) (n :: e :: mid) (e :: mid) (.variable n) := by
    have hunary : Accepted turns .unary (n :: e :: mid) (e :: mid) (.variable n) :=
      accepted_primary (accepted_name hn) ⟨n, _, rfl, by simp [hn]⟩
    have hlt : (e :: mid).length < (n :: e :: mid).length := by simp
    have hall : ∀ ls, Accepted turns (.operand ls) (n :: e :: mid) (e :: mid) (.variable n) := by
      intro ls
      induction ls with
      | nil => exact accepted_tightest hunary
      | cons l ls ih => exact accepted_single ih hlt
    exact hall Ascent.levels
  have hno : NoOperator Ascent.levels (e :: mid) := noOperator_of_equal he
  have hmid : mid.length < (n :: e :: mid).length := by
    simp only [List.length_cons]
    omega
  refine accepted_assigned (.variable n) [] (fun m c hc => ?_) he hv hmid (fun index d hd => ?_) ?_ hturns
  · exact operand_accepts hname hturns List.suffix_rfl (by simp) hno m hc
  · exact .return_ hd
  · simp [Phrase.misassigned]

theorem accepted_misassign {e : Token} {t v : Phrase} (ht : Derives true (.operand Ascent.levels) ts (e :: mid) t)
    (hat : Accepted turns (.operand Ascent.levels) ts (e :: mid) t) (hne : ∀ n, t ≠ .variable n) (he : e.kind = .equal)
    (hv : Accepted turns .expression mid rest v) : Accepted turns .expression ts rest (.assign t e v) := by
  intro hturns
  have hlt : mid.length < ts.length := by
    have := ht.length_lt (by simp) (by simp)
    simp only [List.length_cons] at this
    omega
  refine accepted_assigned t [e] (fun m c hc => ?_) he hv hlt (fun index d hd => ?_) ?_ hturns
  · exact operand_accepts hat hturns List.suffix_rfl (by simp) (noOperator_of_equal he) m hc
  · rw [assigned_of_ne (ht.node_ne_variable (.inl ⟨_, rfl⟩) hne), Phrase.node_assign e hne]
    exact .inr ⟨_, rfl, hd, [⟨index, e, .invalidAssignmentTarget⟩], by simp, by simp, rfl⟩
  · rw [Phrase.misassigned_assign e hne, List.append_assoc]

theorem accepted_varAbsent {v n s : Token} (hn : n.kind = .identifier) (hs : s.kind = .semicolon) :
    Accepted turns .varDeclaration (v :: n :: s :: rest) rest (.var n .absent) := by
  intro _ limit c v us hts hc
  cases hts
  rw [varDeclaration, expect_bind hc hn (by simp), accept?_bind_of_not_mem rfl (by simp [hs])]
  dsimp only
  rw [pure_bind, expect_bind rfl hs (by simp)]
  exact .return_ rfl

theorem accepted_varInitialized {v n e s : Token} (hn : n.kind = .identifier) (he : e.kind = .equal)
    (h : Accepted turns .expression ts (s :: rest) p) (hs : s.kind = .semicolon) :
    Accepted turns .varDeclaration (v :: n :: e :: ts) rest (.var n p) := by
  intro hturns limit c v us hts hc
  cases hts
  simp only [List.length_cons] at hturns
  rw [varDeclaration, expect_bind hc hn (by simp), accept?_bind_of_mem rfl (by simp [he]) (by simp [he])]
  have hx : Accepts false (expression turns limit (skip [e] ts (skip [n] (e :: ts) c))) c p.node (s :: rest)
      p.misassigned :=
    expression_accepts h (by omega) (ends_of_semicolon hs) limit rfl
  change Accepts false _ c _ rest p.misassigned
  rw [← List.append_nil p.misassigned]
  exact hx.bind_expect hs (by simp) fun d hd => .return_ hd

theorem accepted_expressionStatement {s : Token} (h : Accepted turns .expression ts (s :: rest) p)
    (hs : s.kind = .semicolon) : Accepted turns .expressionStatement ts rest (.expression p) := by
  intro hturns limit c hc
  have hx := expression_accepts h hturns (ends_of_semicolon hs) limit hc
  change Accepts false _ c _ rest p.misassigned
  rw [← List.append_nil p.misassigned]
  exact hx.bind_expect hs (by simp) fun d hd => .return_ hd

theorem accepted_initializerAbsent {s : Token} (hs : s.kind = .semicolon) :
    Accepted turns .forInitializer (s :: rest) rest .absent := by
  intro _ limit c hc
  rw [forInitializer, accept?_ite_of_mem hc (by simp [hs]) (by simp [hs])]
  exact .return_ rfl

theorem node?_of_ne {p : Phrase} (h : p.isAbsent = false) : p.node? = some p.node := by
  simp [Phrase.node?, h]

theorem accepted_initializerVar (hd : Derives true .varDeclaration ts rest p)
    (h : Accepted turns .varDeclaration ts rest p) : Accepted turns .forInitializer ts rest p := by
  intro hturns limit c hc
  obtain ⟨v, us, rfl, hv⟩ := hd.exists_varWord
  rw [forInitializer, accept?_ite_of_not_mem hc (by simp [hv]), accept?_ite_of_mem hc (by simp [hv]) (by simp [hv]),
    node?_of_ne (hd.isAbsent_eq_false (by simp) (by simp))]
  exact (h hturns limit (skip [v] us c) v us rfl rfl).then_return

theorem accepted_initializerExpression (hd : Derives true .expressionStatement ts rest p)
    (h : Accepted turns .expressionStatement ts rest p) : Accepted turns .forInitializer ts rest p := by
  intro hturns limit c hc
  obtain ⟨t, us, rfl, ht⟩ := hd.opening_of_expressionStatement
  have hne : ∀ k ∉ opening, t.kind ≠ k := fun k hk he => hk (he ▸ ht)
  rw [forInitializer, accept?_ite_of_not_mem hc (by simpa using hne .semicolon (by decide)),
    accept?_ite_of_not_mem hc (by simpa using hne .varWord (by decide)),
    node?_of_ne (hd.isAbsent_eq_false (by simp) (by simp))]
  exact (h hturns limit c hc).then_return

theorem accepted_clauseAbsent : Accepted turns .clause rest rest .absent := by
  intro _ limit c closing e t us hc hrest ht hend
  subst hrest
  rw [forClause, peek_bind hc, if_pos ht, pure_bind]
  dsimp only
  rw [expect_bind hc ht (closing_ne_eof hend ht)]
  exact .return_ rfl

theorem accepted_clausePresent (hd : Derives true .expression ts rest p) (h : Accepted turns .expression ts rest p) :
    Accepted turns .clause ts rest p := by
  intro hturns limit c closing e t us hc hrest ht hend
  obtain ⟨u, vs, rfl, hu⟩ := hd.exists_opening (.inl rfl)
  have hne : u.kind ≠ closing := by
    intro he
    rw [hrest] at hend
    rcases hend with hend | hend <;> simp [next?, ht, ← he] at hend <;> simp [hend, opening] at hu
  rw [forClause, peek_bind hc, if_neg hne, node?_of_ne (hd.isAbsent_eq_false (by simp) (by simp)),
    ← List.append_nil p.misassigned]
  have hx : Accepts false ((some <$> expression turns limit) c) c (some p.node) rest p.misassigned :=
    (expression_accepts h hturns hend limit hc).then_return
  exact (hrest ▸ hx).bind_expect ht (closing_ne_eof (hrest ▸ hend) ht) fun d hd => .return_ hd

theorem HasEnd.of_suffix (h : HasEnd rest) (hs : rest <:+ ts) : HasEnd ts := by
  obtain ⟨t, ht, he⟩ := h
  exact ⟨t, hs.subset ht, he⟩

def behind? (turns limit : Nat) : Kind → Option (Parse Node)
  | .forWord => some (forStatement (expression turns limit) (statement turns limit))
  | .ifWord => some (ifStatement (expression turns limit) (statement turns limit))
  | .printWord => some (printStatement (expression turns limit))
  | .whileWord => some (whileStatement (expression turns limit) (statement turns limit))
  | .leftBrace => some (block turns (declaration turns limit))
  | _ => none

def entered (r : Rule) (c : Cursor) : Cursor :=
  { c with events := c.events.push (.entered r) }

theorem statement_of_some {limit : Nat} {part : Parse Node} {c : Cursor} (hc : c.rest = t :: ts)
    (hp : behind? turns limit t.kind = some part) :
    statement turns (limit + 1) c = part (skip [t] ts (entered .statement c)) := by
  have hc' : (entered .statement c).rest = t :: ts := hc
  rw [statement, enter_bind]
  change (do if (← accept? [.forWord]).isSome then _ else _) (entered .statement c) = _
  unfold behind? at hp
  split at hp <;> cases hp
  · rename_i hk
    rw [accept?_ite_of_mem hc' (by simp [hk]) (by simp [hk])]
  · rename_i hk
    rw [accept?_ite_of_not_mem hc' (by simp [hk]), accept?_ite_of_mem hc' (by simp [hk]) (by simp [hk])]
  · rename_i hk
    rw [accept?_ite_of_not_mem hc' (by simp [hk]), accept?_ite_of_not_mem hc' (by simp [hk]),
      accept?_ite_of_mem hc' (by simp [hk]) (by simp [hk])]
  · rename_i hk
    rw [accept?_ite_of_not_mem hc' (by simp [hk]), accept?_ite_of_not_mem hc' (by simp [hk]),
      accept?_ite_of_not_mem hc' (by simp [hk]), accept?_ite_of_mem hc' (by simp [hk]) (by simp [hk])]
  · rename_i hk
    rw [accept?_ite_of_not_mem hc' (by simp [hk]), accept?_ite_of_not_mem hc' (by simp [hk]),
      accept?_ite_of_not_mem hc' (by simp [hk]), accept?_ite_of_not_mem hc' (by simp [hk]),
      accept?_ite_of_mem hc' (by simp [hk]) (by simp [hk])]

theorem statement_of_none {limit : Nat} {c : Cursor} (hc : c.rest = t :: ts) (hk : t.kind ∈ opening) :
    statement turns (limit + 1) c = expressionStatement (expression turns limit) (entered .statement c) := by
  have hc' : (entered .statement c).rest = t :: ts := hc
  have hne : ∀ k ∉ opening, t.kind ∉ [k] := fun k hk' he => hk' (List.mem_singleton.mp he ▸ hk)
  rw [statement, enter_bind]
  change (do if (← accept? [.forWord]).isSome then _ else _) (entered .statement c) = _
  rw [accept?_ite_of_not_mem hc' (hne _ (by decide)), accept?_ite_of_not_mem hc' (hne _ (by decide)),
    accept?_ite_of_not_mem hc' (hne _ (by decide)), accept?_ite_of_not_mem hc' (hne _ (by decide)),
    accept?_ite_of_not_mem hc' (hne _ (by decide))]

theorem accepted_behind (part : Nat → Parse Node) (hp : ∀ limit, behind? turns limit t.kind = some (part limit))
    (hx : ts.length ≤ turns → HasEnd rest → ∀ limit d, d.rest = ts →
      Accepts true (part limit d) d p.node rest p.misassigned) :
    Accepted turns .statement (t :: ts) rest p := by
  intro hturns limit c hc hend
  simp only [List.length_cons] at hturns
  cases limit with
  | zero => exact .inl (.inl ⟨c, by rw [statement]; rfl⟩)
  | succ m =>
    rw [statement_of_some hc (hp m)]
    exact hx (by omega) hend m (skip [t] ts (entered .statement c)) rfl

theorem accepted_expressed (hd : Derives true .expressionStatement ts rest p)
    (h : Accepted turns .expressionStatement ts rest p) : Accepted turns .statement ts rest p := by
  intro hturns limit c hc hend
  obtain ⟨t, us, rfl, ht⟩ := hd.opening_of_expressionStatement
  cases limit with
  | zero => exact .inl (.inl ⟨c, by rw [statement]; rfl⟩)
  | succ m =>
    rw [statement_of_none hc ht]
    exact .of_false (h hturns m (entered .statement c) hc)

theorem accepted_print {k s : Token} (hk : k.kind = .printWord) (h : Accepted turns .expression ts (s :: rest) p)
    (hs : s.kind = .semicolon) : Accepted turns .statement (k :: ts) rest (.print p) := by
  refine accepted_behind (fun limit => printStatement (expression turns limit)) (fun limit => by rw [hk]; rfl)
    fun hturns _ limit c hc => ?_
  have hx := expression_accepts h hturns (ends_of_semicolon hs) limit hc
  change Accepts true _ c _ rest p.misassigned
  rw [← List.append_nil p.misassigned]
  exact hx.bind_expect hs (by simp) fun d hd => .return_ hd

theorem accepted_block {l r : Token} {ps : List Phrase} (hl : l.kind = .leftBrace)
    (h : Accepted turns .declarations ts (r :: rest) (.block ps)) (hr : r.kind = .rightBrace) :
    Accepted turns .statement (l :: ts) rest (.block ps) := by
  refine accepted_behind (fun limit => block turns (declaration turns limit)) (fun limit => by rw [hl]; rfl)
    fun hturns hend limit c hc => ?_
  have hx := h hturns limit c ps [.rightBrace, .eof] turns [] rfl hc (hend.of_suffix (List.suffix_cons r rest))
    (by simp) (by simp) ⟨.rightBrace, by simp, by simp [next?, hr]⟩ hturns (Nat.le_refl turns)
  change Accepts true _ c _ rest (Phrase.misassignedAll ps)
  rw [← List.append_nil (Phrase.misassignedAll ps)]
  refine hx.bind_nested turns (fun d hd => ?_) fun ns => (orderly_expect _ _).bind fun _ => .pure _
  rw [expect_bind hd hr (by simp)]
  exact .return_ rfl

section

variable {k l r : Token} {q : Phrase} (hl : l.kind = .leftParen) (hc : Accepted turns .expression ts (r :: mid) p)
  (hr : r.kind = .rightParen)

include hl hc hr

theorem accepted_ifOnly (hk : k.kind = .ifWord) (ha : Accepted turns .statement mid rest q)
    (hmid : mid.length < ts.length) (hnext : next? rest ≠ some .elseWord) :
    Accepted turns .statement (k :: l :: ts) rest (.branch p q .absent) := by
  refine accepted_behind (fun limit => ifStatement (expression turns limit) (statement turns limit))
    (fun limit => by rw [hk]; rfl) fun hturns hend limit c hrest => ?_
  simp only [List.length_cons] at hturns
  have hx := expression_accepts hc (by omega) (ends_of_rightParen hr) limit (c := skip [l] ts c) rfl
  have hs := (orderly_statements turns limit).1.1
  rw [ifStatement, expect_bind hrest hl (by simp), Phrase.misassigned, List.append_assoc]
  refine hx.bind_expect hr (by simp) fun d hd => ?_
  refine (ha (by omega) limit d hd hend).bind_nested turns (fun f hf => ?_) fun _ => (orderly_accept? _).bind fun t => ?_
  · obtain ⟨t, us, rfl⟩ := List.exists_cons_of_ne_nil (l := rest) fun he => by simp [HasEnd, he] at hend
    have ht : t.kind ∉ [.elseWord] := by simpa [next?] using hnext
    rw [accept?_bind_of_not_mem hf ht]
    exact .return_ hf
  · cases t with
    | none => exact .pure _
    | some t => exact hs.bind fun _ => .pure _

theorem accepted_ifElse {e : Token} {mid' : List Token} {b : Phrase} (hk : k.kind = .ifWord)
    (ha : Accepted turns .statement mid (e :: mid') q) (he : e.kind = .elseWord)
    (hb : Accepted turns .statement mid' rest b) (hmid : mid.length < ts.length) (hmid' : mid'.length < mid.length)
    (hsuffix : rest <:+ mid') : Accepted turns .statement (k :: l :: ts) rest (.branch p q b) := by
  refine accepted_behind (fun limit => ifStatement (expression turns limit) (statement turns limit))
    (fun limit => by rw [hk]; rfl) fun hturns hend limit c hrest => ?_
  simp only [List.length_cons] at hturns
  have hx := expression_accepts hc (by omega) (ends_of_rightParen hr) limit (c := skip [l] ts c) rfl
  have hs := (orderly_statements turns limit).1.1
  have hend' : HasEnd (e :: mid') := hend.of_suffix (hsuffix.trans (List.suffix_cons e mid'))
  rw [ifStatement, expect_bind hrest hl (by simp), Phrase.misassigned, List.append_assoc]
  refine hx.bind_expect hr (by simp) fun d hd => ?_
  refine (ha (by omega) limit d hd hend').bind_nested turns (fun f hf => ?_) fun _ => (orderly_accept? _).bind fun t => ?_
  · rw [accept?_bind_of_mem hf (by simp [he]) (by simp [he])]
    exact Accepts.nested_return (hb (by omega) limit (skip [e] mid' f) rfl hend)
  · cases t with
    | none => exact .pure _
    | some t => exact hs.bind fun _ => .pure _

theorem accepted_loop (hk : k.kind = .whileWord) (hb : Accepted turns .statement mid rest q)
    (hmid : mid.length < ts.length) : Accepted turns .statement (k :: l :: ts) rest (.loop p q) := by
  refine accepted_behind (fun limit => whileStatement (expression turns limit) (statement turns limit))
    (fun limit => by rw [hk]; rfl) fun hturns hend limit c hrest => ?_
  simp only [List.length_cons] at hturns
  have hx := expression_accepts hc (by omega) (ends_of_rightParen hr) limit (c := skip [l] ts c) rfl
  rw [whileStatement, expect_bind hrest hl (by simp), Phrase.misassigned]
  refine hx.bind_expect hr (by simp) fun d hd => ?_
  exact Accepts.nested_return (hb (by omega) limit d hd hend)

end

theorem accepted_forLoop {k l s r : Token} {ts' mid' : List Token} {i c e b : Phrase} (hk : k.kind = .forWord)
    (hl : l.kind = .leftParen) (hi : Accepted turns .forInitializer ts ts' i)
    (hc : Accepted turns .clause ts' (s :: mid) c) (hs : s.kind = .semicolon)
    (he : Accepted turns .clause mid (r :: mid') e) (hr : r.kind = .rightParen)
    (hb : Accepted turns .statement mid' rest b) (hts' : ts'.length < ts.length) (hmid : mid.length < ts'.length)
    (hmid' : mid'.length < mid.length) : Accepted turns .statement (k :: l :: ts) rest (.forLoop i c e b) := by
  refine accepted_behind (fun limit => forStatement (expression turns limit) (statement turns limit))
    (fun limit => by rw [hk]; rfl) fun hturns hend limit c₀ hrest => ?_
  simp only [List.length_cons] at hturns
  rw [forStatement, expect_bind hrest hl (by simp), Phrase.misassigned, List.append_assoc, List.append_assoc]
  have hx := hi (by omega) limit (skip [l] ts c₀) rfl
  refine hx.bind fun c₁ h₁ => ?_
  have hy := hc (by omega) limit c₁ .semicolon .semicolonAfterLoopCondition s mid h₁ rfl hs (ends_of_semicolon hs)
  refine hy.bind fun c₂ h₂ => ?_
  have hz := he (by omega) limit c₂ .rightParen .parenAfterForClauses r mid' h₂ rfl hr (ends_of_rightParen hr)
  refine hz.bind fun c₃ h₃ => ?_
  exact Accepts.nested_return (hb (by omega) limit c₃ h₃ hend)

theorem accepted_declaration (hrest : rest <:+ ts)
    (hx : ts.length ≤ turns → HasEnd rest → ∀ limit c, c.rest = ts →
      Accepts true ((do
        if (← accept? [.varWord]).isSome then return ← varDeclaration (expression turns limit)
        statement turns limit : Parse Node) c) c p.node rest p.misassigned) :
    Accepted turns .declaration ts rest p := by
  intro hturns limit c hc hend
  cases limit with
  | zero => exact .inl (.inl ⟨c, by rw [declaration]; rfl⟩)
  | succ m =>
    rw [declaration, enter_bind]
    have ho : Orderly turns (do
        if (← accept? [.varWord]).isSome then return ← varDeclaration (expression turns m)
        statement turns m) :=
      (orderly_accept? _).bind fun _ =>
        .ite (orderly_varDeclaration (orderly_expression turns m)) (orderly_statements turns m).1.1
    exact (hx hturns hend m (entered .declaration c) hc).recover ho (hend.of_suffix (hc ▸ hrest))

theorem accepted_varDeclared (hd : Derives true .varDeclaration ts rest p)
    (h : Accepted turns .varDeclaration ts rest p) : Accepted turns .declaration ts rest p := by
  refine accepted_declaration hd.suffix fun hturns _ limit c hc => ?_
  obtain ⟨v, us, rfl, hv⟩ := hd.exists_varWord
  rw [accept?_ite_of_mem hc (by simp [hv]) (by simp [hv])]
  exact .of_false (h hturns limit (skip [v] us c) v us rfl rfl)

theorem accepted_stated (hd : Derives true .statement ts rest p) (h : Accepted turns .statement ts rest p) :
    Accepted turns .declaration ts rest p := by
  refine accepted_declaration hd.suffix fun hturns hend limit c hc => ?_
  obtain ⟨t, us, rfl, ht⟩ := hd.statement_begins
  have hne : t.kind ∉ [.varWord] := fun hm => ht (by simp [List.mem_singleton.mp hm])
  rw [accept?_ite_of_not_mem hc hne]
  exact h hturns limit c hc hend

theorem accepted_noDeclaration : Accepted turns .declarations rest rest (.block []) := by
  intro _ limit c ps kinds n before hps hc _ _ _ hnext hn _
  cases hps
  obtain ⟨k, hk, hnext⟩ := hnext
  obtain ⟨t, us, rfl, rfl⟩ := next?_eq_some hnext
  simp only [List.length_cons] at hn
  obtain ⟨n, rfl⟩ : ∃ k, n = k + 1 := ⟨n - 1, by omega⟩
  rw [untilKind, peek_bind hc, if_pos hk, Phrase.nodes, List.append_nil]
  exact .return_ hc

theorem accepted_moreDeclarations {q : Phrase} {ps : List Phrase} (hd : Derives true .declaration ts mid q)
    (h : Accepted turns .declaration ts mid q) (hsuffix : rest <:+ mid)
    (hs : Accepted turns .declarations mid rest (.block ps)) :
    Accepted turns .declarations ts rest (.block (q :: ps)) := by
  intro hturns limit c qs kinds n before hqs hc hend hkinds heof hnext hn hn'
  cases hqs
  have hlt := hd.length_lt (by simp) (by simp)
  obtain ⟨n, rfl⟩ : ∃ k, n = k + 1 := ⟨n - 1, by omega⟩
  obtain ⟨t, us, rfl, ht⟩ := hd.declaration_begins
  have hk : t.kind ∉ kinds := by
    intro hm
    rcases hkinds _ hm with he | he <;> simp [he] at ht
  rw [untilKind, peek_bind hc, if_neg hk]
  refine (h hturns limit c hc (hend.of_suffix hsuffix)).bind_nested n (fun d hd => ?_) fun _ =>
    orderly_declarations turns kinds heof limit n _ (by omega)
  have hx := hs (by omega) limit d ps kinds n (q.node :: before) rfl hd hend hkinds heof hnext (by omega) (by omega)
  rw [List.reverse_cons, List.append_assoc] at hx
  exact hx

end

theorem accepted_of_derives {s : Symbol} {ts rest : List Token} {p : Phrase} (h : Derives true s ts rest p) :
    Accepted turns s ts rest p := by
  induction h with
  | noDeclaration => exact accepted_noDeclaration
  | moreDeclarations hd hs ih ih' => exact accepted_moreDeclarations hd ih hs.suffix ih'
  | varDeclared hd ih => exact accepted_varDeclared hd ih
  | stated hd ih => exact accepted_stated hd ih
  | varAbsent _ hn hs => exact accepted_varAbsent hn hs
  | varInitialized _ hn he _ hs ih => exact accepted_varInitialized hn he ih hs
  | expressionStatement _ hs ih => exact accepted_expressionStatement ih hs
  | expressed hd ih => exact accepted_expressed hd ih
  | print hk _ hs ih => exact accepted_print hk ih hs
  | block hl hd hr ih =>
    obtain ⟨ps, rfl⟩ := hd.eq_block
    exact accepted_block hl ih hr
  -- a phrase that takes a token leaves turns enough for what stands behind it
  | ifOnly hk hl hc hr _ hnext ih ih' =>
    have hlt := hc.length_lt (by simp) (by simp)
    exact accepted_ifOnly hl ih hr hk ih' (by simp at hlt; omega) hnext
  | ifElse hk hl hc hr ha he hb ih ih' ih'' =>
    have hlt := hc.length_lt (by simp) (by simp)
    have hlt' := ha.length_lt (by simp) (by simp)
    exact accepted_ifElse hl ih hr hk ih' he ih'' (by simp at hlt; omega) (by simp at hlt'; omega) hb.suffix
  | loop hk hl hc hr _ ih ih' =>
    have hlt := hc.length_lt (by simp) (by simp)
    exact accepted_loop hl ih hr hk ih' (by simp at hlt; omega)
  | forLoop hk hl hi hc hs he hr _ ihi ihc ihe ihb =>
    have hlt := hi.length_lt (by simp) (by simp)
    have hle := hc.suffix.length_le
    have hle' := he.suffix.length_le
    simp only [List.length_cons] at hle hle'
    exact accepted_forLoop hk hl ihi ihc hs ihe hr ihb hlt (by omega) (by omega)
  | initializerAbsent hs => exact accepted_initializerAbsent hs
  | initializerVar hd ih => exact accepted_initializerVar hd ih
  | initializerExpression hd ih => exact accepted_initializerExpression hd ih
  | clauseAbsent => exact accepted_clauseAbsent
  | clausePresent hd ih => exact accepted_clausePresent hd ih
  | assign hn he _ ih => exact accepted_assign hn he ih
  | misassign _ ht hne he _ iht ihv => exact accepted_misassign ht iht hne he ihv
  | joinedAll _ ih => exact accepted_joinedAll ih
  | joined ha ho hb iha ihb =>
    have hlt := ha.length_lt (by simp) (by simp)
    exact accepted_joined iha ho ihb (by simp at hlt; omega) hb.suffix.length_le
  | single hd ih => exact accepted_single ih (hd.length_lt (by simp) (by simp))
  | tightest _ ih => exact accepted_tightest ih
  | unary ho _ ih => exact accepted_unary ho ih
  | primary hd ih => exact accepted_primary ih hd.primary_begins
  | literal ht => exact accepted_literal ht
  | trueWord ht => exact accepted_word (.inr (.inl ⟨ht, rfl⟩))
  | falseWord ht => exact accepted_word (.inl ⟨ht, rfl⟩)
  | nilWord ht => exact accepted_word (.inr (.inr ⟨ht, rfl⟩))
  | name ht => exact accepted_name ht
  | grouping hl _ hr ih => exact accepted_grouping hl ih hr

theorem program_of_derives {limit : Nat} {tokens ts : List Token} {t : Token} {ps : List Phrase}
    (h : Derives true .declarations tokens (t :: ts) (.block ps)) (ht : t.kind = .eof) :
    Accepts true (program limit tokens) (.start tokens) (Phrase.nodes ps) (t :: ts) (Phrase.misassignedAll ps) :=
  accepted_of_derives h (Nat.le_refl _) limit (.start tokens) ps [.eof] tokens.length [] rfl rfl ⟨t, by simp, ht⟩
    (by simp) (by simp) ⟨.eof, by simp, by simp [next?, ht]⟩ (Nat.le_refl _) (Nat.le_refl _)

end Descent

end Lox
