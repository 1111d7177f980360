import Lox.Proofs.Blame.Statements
import Lox.Proofs.Recovery.Lockstep

/-!
Reading from the top down with the configuration of reading from the bottom up beside it: as long as a part complains
about targets only, both take the same tokens, and the first other complaint is about the token that the configuration
refuses. Main statements: `Tracks.bind` and `Tracks.recover`.
-/
namespace Lox

open Ascent (Config Situation)
open Grammar Parse

namespace Cursor

structure Follows (C : Config) (c : Cursor) (C' : Config) (d : Cursor) : Prop where
  spares : c.Spares d
  refusal : C.refusal? c.taken c.rest = C'.refusal? d.taken d.rest

def Locates (C : Config) (c d : Cursor) : Prop :=
  ∃ before x after, d.complaints.toList = c.complaints.toList ++ before ++ x :: after ∧
    (∀ y ∈ before, y.problem = .invalidAssignmentTarget) ∧ x.problem ≠ .invalidAssignmentTarget ∧
    C.refusal? c.taken c.rest = some (x.index, x.token)

variable {C C' C'' : Config} {c d f : Cursor}

theorem Follows.refl (C : Config) (c : Cursor) : c.Follows C C c :=
  ⟨⟨[], .refl c⟩, rfl⟩

theorem Follows.trans (h : c.Follows C C' d) (h' : d.Follows C' C'' f) : c.Follows C C'' f := by
  obtain ⟨ms, hm⟩ := h.spares
  obtain ⟨ns, hn⟩ := h'.spares
  exact ⟨⟨ms ++ ns, hm.trans hn⟩, h.refusal.trans h'.refusal⟩

theorem Follows.skip {t : Token} {ts : List Token} (hc : c.rest = t :: ts) (ht : t.kind ≠ .eof)
    (h : C.step t = some C') : c.Follows C C' (skip [t] ts c) :=
  ⟨⟨[], .refl c⟩, by rw [hc, Config.refusal?_step ht h]; rfl⟩

theorem Follows.locates (h : c.Follows C C' d) (hl : d.Locates C' f) : c.Locates C f := by
  obtain ⟨_, cs, hcs, hspared, -⟩ := h.spares
  obtain ⟨before, x, after, hx, hbefore, hne, hrefusal⟩ := hl
  refine ⟨cs ++ before, x, after, by simp [hx, hcs], fun y hy => ?_, hne, h.refusal.trans hrefusal⟩
  rcases List.mem_append.mp hy with hy | hy
  · exact hspared y hy
  · exact hbefore y hy

theorem Locates.reaches (h : c.Locates C d) (hd : d.Reaches f) : c.Locates C f := by
  obtain ⟨before, x, after, hx, hrest⟩ := h
  obtain ⟨more, hmore⟩ := hd.complaints
  exact ⟨before, x, after ++ more, by simp [← hmore, hx], hrest⟩

theorem Locates.of_refuses {t : Token} {ts : List Token} {p : Problem} (hc : c.rest = t :: ts) (h : C.Refuses t)
    (hp : p ≠ .invalidAssignmentTarget) : c.Locates C { c with complaints := c.complaints.push ⟨c.taken, t, p⟩ } :=
  ⟨[], ⟨c.taken, t, p⟩, [], by simp, by simp, hp, by rw [hc, h.refusal?]⟩

end Cursor

namespace Parse

variable {α β : Type}

def Stops (r : EStateM.Result Halt Cursor α) : Prop :=
  TooDeep true r ∨ ∃ d, r = .error .noEnd d

structure Tracks (P Q : Situation) (x : Parse α) : Prop where
  orderly : Orderly 0 x
  tracks : ∀ C c, P C c.rest → Stops (x c) ∨ c.Locates C (final (x c)) ∨
    ∃ a d C', x c = .ok a d ∧ c.Follows C C' d ∧ Q C' d.rest

def Without (kinds : List Kind) (P : Situation) : Situation := fun C ts =>
  P C ts ∧ ∀ k ∈ next? ts, k ∉ kinds

theorem stops_bind {x : Parse α} {f : α → Parse β} {c : Cursor} (h : Stops (x c)) (ho : ∀ a, Orderly 0 (f a)) :
    Stops ((x >>= f) c) := by
  rcases h with h | ⟨d, hd⟩
  · exact .inl (tooDeep_bind h ho)
  · rw [bind_apply, hd]
    exact .inr ⟨d, rfl⟩

theorem stops_recover {x : Parse α} {c : Cursor} (h : Stops (x c)) : Stops (recover x c) := by
  rcases h with (⟨d, hd⟩ | ⟨-, y, hy, hp⟩) | ⟨d, hd⟩
  -- the limit is complained about at the next token, and there may be none
  · cases hrest : d.rest with
    | nil => exact .inr ⟨d, by simp only [recover, hd, bind_apply, complainHere, hrest]⟩
    | cons t ts => exact .inl (.inr ⟨rfl, _, recover_tooDeep hd hrest, rfl⟩)
  · exact .inl (.inr ⟨rfl, y, (recover_reaches x c).complaints.subset hy, hp⟩)
  · exact .inr ⟨d, by simp only [recover, hd]⟩

namespace Tracks

variable {P P' Q Q' R : Situation} {x y : Parse α}

theorem pure (a : α) : Tracks P P (pure a) :=
  ⟨.pure a, fun C c h => .inr (.inr ⟨a, c, C, rfl, .refl C c, h⟩)⟩

theorem tooDeep : Tracks P Q (throw .tooDeep : Parse α) :=
  ⟨.tooDeep, fun _ c _ => .inl (.inl (.inl ⟨c, rfl⟩))⟩

theorem noEnd : Tracks P Q (throw .noEnd : Parse α) :=
  ⟨fun c => noTurn_outcome c, fun _ c _ => .inl (.inr ⟨c, rfl⟩)⟩

theorem weaken (h : Tracks P Q x) (hP : ∀ C ts, P' C ts → P C ts) (hQ : ∀ C ts, Q C ts → Q' C ts) : Tracks P' Q' x := by
  refine ⟨h.orderly, fun C c hc => ?_⟩
  rcases h.tracks C c (hP C c.rest hc) with hs | hl | ⟨a, d, C', hd, hf, hq⟩
  · exact .inl hs
  · exact .inr (.inl hl)
  · exact .inr (.inr ⟨a, d, C', hd, hf, hQ C' d.rest hq⟩)

theorem before (h : Tracks P Q x) (hP : ∀ C ts, P' C ts → P C ts) : Tracks P' Q x :=
  h.weaken hP fun _ _ hq => hq

theorem behind (h : Tracks P Q x) (hQ : ∀ C ts, Q C ts → Q' C ts) : Tracks P Q' x :=
  h.weaken (fun _ _ hp => hp) hQ

theorem exists_ {ι : Type} [Inhabited ι] {P Q : ι → Situation} (h : ∀ i, Tracks (P i) (Q i) x) :
    Tracks (fun C ts => ∃ i, P i C ts) (fun C ts => ∃ i, Q i C ts) x := by
  refine ⟨(h default).orderly, fun C c ⟨i, hi⟩ => ?_⟩
  rcases (h i).tracks C c hi with hs | hl | ⟨a, d, C', hd, hf, hq⟩
  · exact .inl hs
  · exact .inr (.inl hl)
  · exact .inr (.inr ⟨a, d, C', hd, hf, i, hq⟩)

theorem of_exists {ι : Type} [Inhabited ι] {P : ι → Situation} (h : ∀ i, Tracks (P i) Q x) :
    Tracks (fun C ts => ∃ i, P i C ts) Q x :=
  (exists_ h).behind fun _ _ ⟨_, hq⟩ => hq

theorem bind {f : α → Parse β} (h : Tracks P Q x) (hf : ∀ a, Tracks Q R (f a)) : Tracks P R (x >>= f) := by
  refine ⟨h.orderly.bind fun a => (hf a).orderly, fun C c hc => ?_⟩
  rcases h.tracks C c hc with hs | hl | ⟨a, d, C', hd, hfollows, hq⟩
  · exact .inl (stops_bind hs fun a => (hf a).orderly)
  · exact .inr (.inl (hl.reaches (bind_reaches (fun a => (hf a).orderly) x c)))
  · have happly : (x >>= f) c = f a d := by rw [bind_apply, hd]
    rw [happly]
    rcases (hf a).tracks C' d hq with hs | hl | ⟨b, d', C'', hd', hfollows', hr⟩
    · exact .inl hs
    · exact .inr (.inl (hfollows.locates hl))
    · exact .inr (.inr ⟨b, d', C'', hd', hfollows.trans hfollows', hr⟩)

theorem ite {p : Prop} [Decidable p] (h : p → Tracks P Q x) (h' : ¬ p → Tracks P Q y) :
    Tracks P Q (if p then x else y) := by
  split
  · exact h ‹_›
  · exact h' ‹_›

theorem enter (r : Rule) : Tracks P P (enter r) :=
  ⟨orderly_enter r, fun C c h => .inr (.inr ⟨(), _, C, rfl, ⟨⟨[], [], by simp⟩, rfl⟩, h⟩)⟩

theorem complain (i : Nat) (t : Token) : Tracks P P (complain i t .invalidAssignmentTarget) := by
  refine ⟨orderly_complain i t _, fun C c h => .inr (.inr ⟨(), _, C, rfl, ⟨⟨[t], ?_⟩, rfl⟩, h⟩)⟩
  exact ⟨[⟨i, t, .invalidAssignmentTarget⟩], by simp, by simp, rfl⟩

theorem taken {f : Nat → Parse α} (h : ∀ n, Tracks P Q (f n)) : Tracks P Q (do let c ← get; f c.taken) :=
  ⟨fun c => (h c.taken).orderly c, fun C c => (h c.taken).tracks C c⟩

theorem accept?_bind {kinds : List Kind} {f : Option Token → Parse β} (he : .eof ∉ kinds)
    (hstep : ∀ C t ts, P C (t :: ts) → t.kind ∈ kinds → C.Leads t Q ts) (hsome : ∀ t, Tracks Q R (f (some t)))
    (hnone : Tracks (Without kinds P) R (f none)) : Tracks P R (accept? kinds >>= f) := by
  refine ⟨orderly_accept?_bind (fun t => (hsome t).orderly) hnone.orderly, fun C c hP => ?_⟩
  cases hc : c.rest with
  | nil =>
    rw [bind_apply, accept?]
    simp only [hc]
    exact .inl (.inr ⟨c, rfl⟩)
  | cons t ts =>
    by_cases ht : t.kind ∈ kinds
    · have hne : t.kind ≠ .eof := fun heof => he (heof ▸ ht)
      rw [accept?_bind_of_mem hc ht hne]
      obtain ⟨C', hC', hq⟩ := hstep C t ts (hc ▸ hP) ht
      have hfollows := Cursor.Follows.skip hc hne hC'
      rcases (hsome t).tracks C' (skip [t] ts c) hq with hs | hl | ⟨b, d, C'', hd, hfollows', hr⟩
      · exact .inl hs
      · exact .inr (.inl (hfollows.locates hl))
      · exact .inr (.inr ⟨b, d, C'', hd, hfollows.trans hfollows', hr⟩)
    · rw [accept?_bind_of_not_mem hc ht]
      refine hnone.tracks C c ⟨hP, fun k hk => ?_⟩
      rw [hc] at hk
      cases hk
      exact ht

theorem accept?_kind {kind : Kind} {f : Option Token → Parse β} (he : kind ≠ .eof)
    (hstep : ∀ C t ts, P C (t :: ts) → t.kind = kind → C.Leads t Q ts) (hsome : ∀ t, Tracks Q R (f (some t)))
    (hnone : Tracks (fun C ts => P C ts ∧ next? ts ≠ some kind) R (f none)) : Tracks P R (accept? [kind] >>= f) :=
  accept?_bind (fun hm => he (List.mem_singleton.mp hm).symm)
    (fun C t ts hP ht => hstep C t ts hP (List.mem_singleton.mp ht)) hsome
    (hnone.before fun _ _ hP => ⟨hP.1, fun hk => hP.2 kind hk (List.mem_singleton.mpr rfl)⟩)

theorem accept?_next {kinds seen : List Kind} {f : Option Token → Parse β} (he : .eof ∉ kinds)
    (hstep : ∀ C t ts, P C (t :: ts) → t.kind ∈ kinds → C.Leads t Q ts) (hsome : ∀ t, Tracks Q R (f (some t)))
    (hnone : Tracks (Without (seen ++ kinds) P) R (f none)) : Tracks (Without seen P) R (accept? kinds >>= f) := by
  refine accept?_bind he (fun C t ts hP => hstep C t ts hP.1) hsome (hnone.before fun C ts hP => ⟨hP.1.1, fun k hk hm => ?_⟩)
  rcases List.mem_append.mp hm with hm | hm
  · exact hP.1.2 k hk hm
  · exact hP.2 k hk hm

theorem fail {p : Problem} (hp : p ≠ .invalidAssignmentTarget) (h : ∀ C t ts, P C (t :: ts) → C.Refuses t) :
    Tracks P Q (fail p : Parse α) := by
  refine ⟨orderly_fail hp, fun C c hP => ?_⟩
  cases hc : c.rest with
  | nil =>
    rw [Parse.fail, bind_apply, complainHere]
    simp only [hc]
    exact .inl (.inr ⟨c, rfl⟩)
  | cons t ts =>
    rw [Parse.fail, bind_apply, complainHere]
    simp only [hc]
    exact .inr (.inl (.of_refuses hc (h C t ts (hc ▸ hP)) hp))

theorem expect {kind : Kind} {e : Expected} (he : kind ≠ .eof)
    (hstep : ∀ C t ts, P C (t :: ts) → t.kind = kind → C.Leads t Q ts)
    (hrefuses : ∀ C t ts, P C (t :: ts) → t.kind ≠ kind → C.Refuses t) : Tracks P Q (expect kind e) :=
  accept?_kind he hstep (fun t => .pure t)
    (.fail (by simp) fun C t ts hP => hrefuses C t ts hP.1 fun ht => hP.2 (congrArg some ht))

theorem peek_bind {f : Token → Parse β} (h : ∀ t, Tracks (fun C ts => P C ts ∧ ts.head? = some t) Q (f t)) :
    Tracks P Q (peek >>= f) := by
  refine ⟨orderly_peek.bind fun t => (h t).orderly, fun C c hP => ?_⟩
  cases hc : c.rest with
  | nil =>
    rw [bind_apply, peek]
    simp only [hc]
    exact .inl (.inr ⟨c, rfl⟩)
  | cons t ts =>
    rw [Parse.peek_bind hc]
    exact (h t).tracks C c ⟨hP, by rw [hc]; rfl⟩

theorem recover (h : Tracks P Q x) : Tracks P Q (recover x) := by
  refine ⟨orderly_recover h.orderly, fun C c hP => ?_⟩
  rcases h.tracks C c hP with hs | hl | ⟨a, d, C', hd, hfollows, hq⟩
  · exact .inl (stops_recover hs)
  · exact .inr (.inl (hl.reaches (recover_reaches x c)))
  · refine .inr (.inr ⟨some a, d, C', ?_, hfollows, hq⟩)
    simp only [Parse.recover, hd]

theorem untilKind {kinds : List Kind} {part : Parse (Option α)} (h : Tracks (Without kinds P) P part) :
    ∀ n before, Tracks P (fun C ts => P C ts ∧ ∃ k ∈ kinds, next? ts = some k) (untilKind kinds part n before) := by
  intro n
  induction n with
  | zero => exact fun before => .noEnd
  | succ n ih =>
    refine fun before => .peek_bind fun t => .ite (fun ht => ?_) fun ht => ?_
    · exact (Tracks.pure _).before fun C ts hP => ⟨hP.1, t.kind, ht, by rw [next?, hP.2]; rfl⟩
    · refine (h.before fun C ts hP => ⟨hP.1, fun k hk => ?_⟩).bind fun a? => ih _
      rw [next?, hP.2] at hk
      cases hk
      exact ht

end Tracks

end Parse

end Lox
