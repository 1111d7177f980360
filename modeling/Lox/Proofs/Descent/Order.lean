import Lox.Cursor
import Lox.Descent

/-!
The order of reading: every rule takes tokens from the front, none of them an end token, traces each of them, and
only adds to the complaints. A rule that gives up has complained, and no rule runs out of tokens before an end token.
-/
namespace Lox

def Event.token? : Event → Option Token
  | .taken t => some t
  | .entered _ => none

namespace Cursor

def consumed (c : Cursor) : List Token :=
  c.events.toList.filterMap Event.token?

structure Reaches (c c' : Cursor) : Prop where
  tokens : ∃ ts, c.rest = ts ++ c'.rest ∧ (∀ t ∈ ts, t.kind ≠ .eof) ∧ c'.taken = c.taken + ts.length
  complaints : c.complaints.toList <+: c'.complaints.toList
  consumed : c'.consumed ++ c'.rest = c.consumed ++ c.rest

def Blames (c c' : Cursor) : Prop :=
  ∃ cs x, c'.complaints.toList = c.complaints.toList ++ cs ++ [x] ∧ x.problem ≠ .invalidAssignmentTarget

def HasEnd (c : Cursor) : Prop :=
  ∃ t ∈ c.rest, t.kind = .eof

namespace Reaches

variable {a b c : Cursor}

theorem refl (c : Cursor) : c.Reaches c :=
  ⟨⟨[], by simp⟩, List.prefix_rfl, rfl⟩

theorem trans (hab : a.Reaches b) (hbc : b.Reaches c) : a.Reaches c := by
  obtain ⟨ts, hts, hte, htn⟩ := hab.tokens
  obtain ⟨us, hus, hue, hun⟩ := hbc.tokens
  refine ⟨⟨ts ++ us, by simp [hts, hus], ?_, by simp [hun, htn, Nat.add_assoc]⟩,
    hab.complaints.trans hbc.complaints, hbc.consumed.trans hab.consumed⟩
  intro t ht
  rcases List.mem_append.mp ht with h | h
  · exact hte t h
  · exact hue t h

theorem consumed_eq (h : a.Reaches b) {ts : List Token} (hts : a.rest = ts ++ b.rest) :
    b.consumed = a.consumed ++ ts := by
  have heq := h.consumed
  rw [hts, ← List.append_assoc] at heq
  exact List.append_cancel_right heq

theorem length_le (h : a.Reaches b) : b.rest.length ≤ a.rest.length := by
  obtain ⟨ts, hts, -, -⟩ := h.tokens
  simp [hts]

theorem length_lt (h : a.Reaches b) (hne : a.rest ≠ b.rest) : b.rest.length < a.rest.length := by
  obtain ⟨ts, hts, -, -⟩ := h.tokens
  cases ts with
  | nil => exact absurd hts hne
  | cons t ts =>
    rw [hts, List.length_append, List.length_cons]
    omega

theorem hasEnd (h : a.Reaches b) (he : a.HasEnd) : b.HasEnd := by
  obtain ⟨ts, hts, hte, -⟩ := h.tokens
  obtain ⟨t, ht, hk⟩ := he
  rw [hts, List.mem_append] at ht
  exact ⟨t, ht.resolve_left fun hm => hte t hm hk, hk⟩

theorem rest_ne_nil (h : a.Reaches b) (he : a.HasEnd) : b.rest ≠ [] := by
  obtain ⟨t, ht, -⟩ := h.hasEnd he
  exact List.ne_nil_of_mem ht

theorem blames_left (h : a.Reaches b) (hb : b.Blames c) : a.Blames c := by
  obtain ⟨cs, hcs⟩ := h.complaints
  obtain ⟨ds, x, hx, hp⟩ := hb
  exact ⟨cs ++ ds, x, by simp [hx, ← hcs], hp⟩

end Reaches

end Cursor

namespace Parse

variable {α β : Type} {turns : Nat}

def Outcome (turns : Nat) (c : Cursor) : EStateM.Result Halt Cursor α → Prop
  | .ok _ c' => c.Reaches c'
  | .error .complained c' => c.Reaches c' ∧ c.Blames c'
  | .error .tooDeep c' => c.Reaches c'
  | .error .noEnd c' => c.Reaches c' ∧ (c'.rest ≠ [] → turns < c.rest.length)

def Orderly (turns : Nat) (part : Parse α) : Prop :=
  ∀ c, Outcome turns c (part c)

namespace Outcome

theorem reaches {c : Cursor} {r : EStateM.Result Halt Cursor α} (h : Outcome turns c r) :
    c.Reaches (final r) := by
  match r, h with
  | .ok _ _, h => exact h
  | .error .complained _, h => exact h.1
  | .error .tooDeep _, h => exact h
  | .error .noEnd _, h => exact h.1

theorem after {more : Nat} {c d : Cursor} {r : EStateM.Result Halt Cursor α} (h : Outcome turns d r)
    (hcd : c.Reaches d) (hlen : d.rest.length + more ≤ c.rest.length) :
    Outcome (turns + more) c r := by
  match r, h with
  | .ok _ _, h => exact hcd.trans h
  | .error .complained _, h => exact ⟨hcd.trans h.1, hcd.blames_left h.2⟩
  | .error .tooDeep _, h => exact hcd.trans h
  | .error .noEnd _, h =>
    refine ⟨hcd.trans h.1, fun hne => ?_⟩
    have := h.2 hne
    omega

theorem trans {c d : Cursor} {r : EStateM.Result Halt Cursor α} (hcd : c.Reaches d) (h : Outcome turns d r) :
    Outcome turns c r := by
  have h0 : d.rest.length + 0 ≤ c.rest.length := hcd.length_le
  exact h.after hcd h0

theorem error {c d : Cursor} {e : Halt} (h : Outcome turns c (.error e d : EStateM.Result Halt Cursor α)) :
    Outcome turns c (.error e d : EStateM.Result Halt Cursor β) := by
  cases e <;> exact h

theorem mono {fewer : Nat} {c : Cursor} {r : EStateM.Result Halt Cursor α} (hle : fewer ≤ turns)
    (h : Outcome turns c r) : Outcome fewer c r := by
  match r, h with
  | .ok _ _, h => exact h
  | .error .complained _, h => exact h
  | .error .tooDeep _, h => exact h
  | .error .noEnd _, h => exact ⟨h.1, fun hne => Nat.lt_of_le_of_lt hle (h.2 hne)⟩

end Outcome

namespace Orderly

theorem bind {x : Parse α} {f : α → Parse β} (hx : Orderly turns x) (hf : ∀ a, Orderly turns (f a)) :
    Orderly turns (x >>= f) := by
  intro c
  have h := hx c
  rw [bind_apply]
  cases hxc : x c with
  | ok a d =>
    rw [hxc] at h
    exact .trans h (hf a d)
  | error e d =>
    rw [hxc] at h
    exact h.error

theorem pure (a : α) : Orderly turns (pure a : Parse α) :=
  fun c => .refl c

theorem map {x : Parse α} (f : α → β) (hx : Orderly turns x) : Orderly turns (f <$> x) :=
  hx.bind fun a => .pure (f a)

theorem tooDeep : Orderly turns (throw .tooDeep : Parse α) :=
  fun c => .refl c

theorem get : Orderly turns (get : Parse Cursor) :=
  fun c => .refl c

theorem ite {p : Prop} [Decidable p] {x y : Parse α} (hx : Orderly turns x) (hy : Orderly turns y) :
    Orderly turns (if p then x else y) := by
  split
  · exact hx
  · exact hy

end Orderly

theorem noEnd_outcome {c : Cursor} (h : c.rest = []) :
    Outcome turns c (.error .noEnd c : EStateM.Result Halt Cursor α) :=
  ⟨.refl c, fun hne => absurd h hne⟩

theorem noTurn_outcome (c : Cursor) : Outcome 0 c (.error .noEnd c : EStateM.Result Halt Cursor α) :=
  ⟨.refl c, List.length_pos_iff.mpr⟩

theorem orderly_peek : Orderly turns peek := by
  intro c
  unfold peek
  split
  · exact noEnd_outcome ‹_›
  · exact .refl c

theorem orderly_enter (r : Rule) : Orderly turns (enter r) :=
  fun _ => ⟨⟨[], by simp⟩, List.prefix_rfl, by simp [Cursor.consumed, Event.token?]⟩

theorem consumed_skip (ts rest : List Token) (c : Cursor) : (skip ts rest c).consumed = c.consumed ++ ts := by
  have htaken : (ts.map Event.taken).filterMap Event.token? = ts := by
    rw [List.filterMap_map]
    exact List.filterMap_some
  rw [Cursor.consumed, skip, Array.toList_append, List.filterMap_append, htaken]
  rfl

theorem reaches_skip {ts rest : List Token} {c : Cursor} (h : c.rest = ts ++ rest)
    (hts : ∀ t ∈ ts, t.kind ≠ .eof) : c.Reaches (skip ts rest c) :=
  ⟨⟨ts, h, hts, rfl⟩, List.prefix_rfl, by rw [consumed_skip, h, List.append_assoc]; rfl⟩

theorem accept?_cons (kinds : List Kind) {c : Cursor} {t : Token} {ts : List Token} (h : c.rest = t :: ts) :
    accept? kinds c =
      if t.kind ≠ .eof ∧ t.kind ∈ kinds then .ok (some t) (skip [t] ts c) else .ok none c := by
  simp only [accept?, h]

theorem orderly_accept? (kinds : List Kind) : Orderly turns (accept? kinds) := by
  intro c
  cases hc : c.rest with
  | nil =>
    simp only [accept?, hc]
    exact noEnd_outcome hc
  | cons t ts =>
    rw [accept?_cons kinds hc]
    split
    · rename_i ht
      exact reaches_skip hc (by simpa using ht.1)
    · exact .refl c

theorem reaches_complain (index : Nat) (t : Token) (p : Problem) (c : Cursor) :
    c.Reaches { c with complaints := c.complaints.push ⟨index, t, p⟩ } :=
  ⟨⟨[], by simp⟩, by simp, rfl⟩

theorem orderly_complain (index : Nat) (t : Token) (p : Problem) : Orderly turns (complain index t p) :=
  fun c => reaches_complain index t p c

theorem orderly_complainHere (p : Problem) : Orderly turns (complainHere p) := by
  intro c
  unfold complainHere
  split
  · exact noEnd_outcome ‹_›
  · exact reaches_complain _ _ _ c

theorem fail_apply {c : Cursor} {t : Token} {ts : List Token} (hc : c.rest = t :: ts) (p : Problem) :
    (fail p : Parse α) c = .error .complained { c with complaints := c.complaints.push ⟨c.taken, t, p⟩ } := by
  simp only [fail, bind_apply, complainHere, hc, complain]
  rfl

theorem orderly_fail {p : Problem} (hp : p ≠ .invalidAssignmentTarget) : Orderly turns (fail p : Parse α) := by
  intro c
  unfold fail
  rw [bind_apply]
  unfold complainHere
  cases hc : c.rest with
  | nil => exact noEnd_outcome hc
  | cons t ts => exact ⟨reaches_complain _ _ _ c, [], ⟨c.taken, t, p⟩, by simp, hp⟩

theorem orderly_expect (kind : Kind) (e : Expected) : Orderly turns (expect kind e) := by
  refine (orderly_accept? [kind]).bind fun t? => ?_
  cases t? with
  | some t => exact .pure t
  | none => exact orderly_fail (by simp)

theorem expect_end {c : Cursor} {t : Token} {ts : List Token} (hc : c.rest = t :: ts) (ht : t.kind = .eof)
    (kind : Kind) (e : Expected) :
    expect kind e c = .error .complained { c with complaints := c.complaints.push ⟨c.taken, t, .missing e⟩ } := by
  rw [expect, bind_apply, accept?_cons _ hc, if_neg fun h => h.1 ht]
  exact fail_apply hc _

theorem toBoundary_noEnd {last : Kind} {ts : List Token} {t : Token} (ht : t ∈ (toBoundary last ts).1) :
    t.kind ≠ .eof := by
  induction ts generalizing last with
  | nil => simp [toBoundary] at ht
  | cons u us ih =>
    rw [toBoundary] at ht
    split at ht
    · simp at ht
    · rename_i hu
      rcases List.mem_cons.mp ht with rfl | hm
      · exact fun he => hu (.inl he)
      · exact ih hm

theorem synchronize_cons {c : Cursor} {t : Token} {ts : List Token} (h : c.rest = t :: ts) :
    synchronize c =
      if t.kind = .eof then .ok () c
      else
        let c' := skip (t :: (toBoundary t.kind ts).1) (toBoundary t.kind ts).2 c
        if (toBoundary t.kind ts).2.isEmpty then .error .noEnd c' else .ok () c' := by
  simp only [synchronize, h]

theorem reaches_boundary {c : Cursor} {t : Token} {ts : List Token} (h : c.rest = t :: ts) (ht : t.kind ≠ .eof) :
    c.Reaches (skip (t :: (toBoundary t.kind ts).1) (toBoundary t.kind ts).2 c) := by
  apply reaches_skip
  · rw [List.cons_append, toBoundary_append, h]
  · intro u hu
    rcases List.mem_cons.mp hu with rfl | hm
    · exact ht
    · exact toBoundary_noEnd hm

theorem orderly_synchronize : Orderly turns synchronize := by
  intro c
  cases hc : c.rest with
  | nil =>
    simp only [synchronize, hc]
    exact noEnd_outcome hc
  | cons t ts =>
    rw [synchronize_cons hc]
    split
    · exact .refl c
    rename_i ht
    have hr := reaches_boundary hc ht
    dsimp only
    split
    · exact ⟨hr, fun hne => absurd (List.isEmpty_iff.mp ‹_›) hne⟩
    · exact hr

theorem orderly_recover {part : Parse α} (h : Orderly turns part) : Orderly turns (recover part) := by
  intro c
  have hc := h c
  unfold recover
  have hsync : Orderly turns (do synchronize; return none : Parse (Option α)) :=
    orderly_synchronize.bind fun _ => .pure none
  cases hp : part c with
  | ok a d =>
    rw [hp] at hc
    exact hc
  | error e d =>
    rw [hp] at hc
    have hd := hc.reaches
    cases e with
    | complained => exact .trans hd (hsync d)
    | tooDeep =>
      exact .trans hd (((orderly_complainHere .nestingTooDeep).bind fun _ => hsync) d)
    | noEnd => exact hc.error

theorem orderly_untilKind {kinds : List Kind} {part : Parse (Option α)} (hk : .eof ∈ kinds)
    (h : Orderly turns part)
    (ht : ∀ c a c' t, c.rest.head? = some t → t.kind ≠ .eof → part c = .ok a c' →
      c'.rest.length < c.rest.length) :
    ∀ n before, n ≤ turns → Orderly n (untilKind kinds part n before) := by
  intro n
  induction n with
  | zero => exact fun before _ c => noTurn_outcome c
  | succ n ih =>
    intro before hn c
    rw [untilKind, bind_apply, peek]
    cases hc : c.rest with
    | nil => exact noEnd_outcome hc
    | cons t ts =>
      dsimp only
      split
      · exact .refl c
      rename_i hmem
      rw [bind_apply]
      have hp := h c
      cases hpc : part c with
      | error e d =>
        rw [hpc] at hp
        exact (hp.mono hn).error
      | ok a d =>
        rw [hpc] at hp
        have hlt := ht c a d t (by simp [hc]) (fun he => hmem (he ▸ hk)) hpc
        exact (ih _ (by omega) d).after hp hlt

theorem synchronize_error {c d : Cursor} {e : Halt} (h : synchronize c = .error e d) : e = .noEnd := by
  cases hc : c.rest with
  | nil =>
    simp only [synchronize, hc] at h
    cases h
    rfl
  | cons t ts =>
    rw [synchronize_cons hc] at h
    split at h
    · cases h
    · dsimp only at h
      split at h <;> cases h
      rfl

theorem recover_error {part : Parse α} {c d : Cursor} {e : Halt} (h : recover part c = .error e d) : e = .noEnd := by
  have hsync : ∀ {c d : Cursor} {e : Halt},
      (do synchronize; return none : Parse (Option α)) c = .error e d → e = .noEnd := by
    intro c d e h
    rw [bind_apply] at h
    cases hs : synchronize c with
    | ok _ _ => rw [hs] at h; cases h
    | error e' d' =>
      rw [hs] at h
      cases h
      exact synchronize_error hs
  unfold recover at h
  cases hp : part c with
  | ok a c' => rw [hp] at h; cases h
  | error e' c' =>
    rw [hp] at h
    cases e' with
    | complained => exact hsync h
    | tooDeep =>
      dsimp only at h
      rw [bind_apply] at h
      cases hr : c'.rest with
      | nil =>
        simp only [complainHere, hr] at h
        cases h
        rfl
      | cons t ts =>
        simp only [complainHere, hr, complain] at h
        exact hsync h
    | noEnd => cases h; rfl

theorem untilKind_error {kinds : List Kind} {part : Parse (Option α)}
    (hp : ∀ c e d, part c = .error e d → e = .noEnd) :
    ∀ n before c {e d}, untilKind kinds part n before c = .error e d → e = .noEnd := by
  intro n
  induction n with
  | zero =>
    intro before c e d h
    cases h
    rfl
  | succ n ih =>
    intro before c e d h
    rw [untilKind, bind_apply, peek] at h
    cases hc : c.rest with
    | nil =>
      simp only [hc] at h
      cases h
      rfl
    | cons t ts =>
      simp only [hc] at h
      split at h
      · cases h
      · rw [bind_apply] at h
        cases hpc : part c with
        | ok a c' =>
          rw [hpc] at h
          exact ih _ _ h
        | error e' c' =>
          rw [hpc] at h
          cases h
          exact hp _ _ _ hpc

def Consumes (part : Parse α) : Prop :=
  ∀ c a c', part c = .ok a c' → c'.rest.length < c.rest.length

namespace Consumes

variable (turns)

theorem bind_left {x : Parse α} {f : α → Parse β} (hx : Consumes x) (hf : ∀ a, Orderly turns (f a)) :
    Consumes (x >>= f) := by
  intro c b c' h
  obtain ⟨a, d, hxa, hfa⟩ := bind_eq_ok.mp h
  have hd := hf a d
  rw [hfa] at hd
  exact Nat.lt_of_le_of_lt (Cursor.Reaches.length_le hd) (hx c a d hxa)

theorem bind_right {x : Parse α} {f : α → Parse β} (hx : Orderly turns x) (hf : ∀ a, Consumes (f a)) :
    Consumes (x >>= f) := by
  intro c b c' h
  obtain ⟨a, d, hxa, hfa⟩ := bind_eq_ok.mp h
  have hd := hx c
  rw [hxa] at hd
  exact Nat.lt_of_lt_of_le (hf a d b c' hfa) (Cursor.Reaches.length_le hd)

theorem complaint (p : Problem) : Consumes (fail p : Parse α) := by
  intro c a c' h
  obtain ⟨_, d, -, hd⟩ := bind_eq_ok.mp h
  cases hd

theorem accept?_bind {kinds : List Kind} {f : Option Token → Parse β} (hsome : ∀ t, Orderly turns (f (some t)))
    (hnone : Consumes (f none)) : Consumes (accept? kinds >>= f) := by
  intro c b c' h
  obtain ⟨t?, d, ht, hf⟩ := bind_eq_ok.mp h
  cases hc : c.rest with
  | nil => simp [accept?, hc] at ht
  | cons u us =>
    rw [accept?_cons kinds hc] at ht
    split at ht
    · cases ht
      have hd := hsome u (skip [u] us c)
      rw [hf] at hd
      exact Nat.lt_of_le_of_lt (Cursor.Reaches.length_le hd) (by simp [skip])
    · cases ht
      rw [← hc]
      exact hnone c b c' hf

end Consumes

theorem recover_consumes {part : Parse α} (h : Orderly turns part) (ht : Consumes part) {c c' : Cursor}
    {a : Option α} {t : Token} (hc : c.rest.head? = some t) (he : t.kind ≠ .eof)
    (hr : recover part c = .ok a c') : c'.rest.length < c.rest.length := by
  -- where the part failed either a token was taken already or the first one is still there
  have hsync : ∀ d : Cursor, c.Reaches d → (do synchronize; return none : Parse (Option α)) d = .ok a c' →
      c'.rest.length < c.rest.length := by
    intro d hd hs
    obtain ⟨_, d', hs', hp⟩ := bind_eq_ok.mp hs
    cases hp
    have hlen := hd.length_le
    cases hr' : d.rest with
    | nil => simp [synchronize, hr'] at hs'
    | cons u us =>
      rw [synchronize_cons hr'] at hs'
      split at hs'
      · cases hs'
        apply hd.length_lt
        intro heq
        rw [heq, hr', List.head?_cons, Option.some.injEq] at hc
        exact he (hc ▸ ‹u.kind = .eof›)
      · dsimp only at hs'
        split at hs'
        · cases hs'
        · cases hs'
          have hb := congrArg List.length (toBoundary_append u.kind us)
          simp only [List.length_append] at hb
          simp only [skip, hr', List.length_cons] at hlen ⊢
          omega
  have hp := h c
  unfold recover at hr
  cases hpc : part c with
  | ok b d =>
    rw [hpc] at hr
    cases hr
    exact ht c b c' hpc
  | error e d =>
    rw [hpc] at hr hp
    have hd := hp.reaches
    cases e with
    | complained => exact hsync d hd hr
    | tooDeep =>
      obtain ⟨_, d', hd', hs⟩ := bind_eq_ok.mp hr
      have hd'' := (orderly_complainHere .nestingTooDeep : Orderly 0 _) d
      rw [hd'] at hd''
      exact hsync d' (hd.trans hd'') hs
    | noEnd => cases hr

end Parse

end Lox
