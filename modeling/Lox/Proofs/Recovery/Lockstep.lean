import Lox.Proofs.Descent.Progress

/-!
Two readings in lockstep: they see the same tokens up to a semicolon behind which the first one ends and the second one
goes on. Both do the same up to there, unless the first one blames its end or the second one is too deep. Main
statement: `Lockstep.bind`.
-/
namespace Lox

open Parse
open Descent (HasEnd)

def Cursor.said (c : Cursor) : List (Token × Problem) :=
  c.complaints.toList.map fun x => (x.token, x.problem)

structure Seam where
  stop : Token
  ahead : Option (List Token)
  said : List (Token × Problem)
  spared : List Kind
  stop_eof : stop.kind = .eof
  ahead_end : ∀ ts ∈ ahead, HasEnd ts
  ahead_else : ∀ ts ∈ ahead, ∀ t ∈ ts.head?, t.kind ≠ .elseWord
  spared_eof : ahead ≠ none → .eof ∈ spared
  spared_sub : ∀ k ∈ spared, k ∈ [Kind.eof, .rightBrace]

namespace Seam

variable (σ : Seam)

inductive Shared : List Token → List Token → Prop
  | same {ts} : σ.ahead = none → HasEnd ts → Shared ts ts
  | before {ts s ws} : σ.ahead = some ws → (∀ t ∈ ts, t.kind ≠ .eof) → s.kind = .semicolon →
      Shared (ts ++ [s, σ.stop]) (ts ++ s :: ws)

inductive Parting : List Token → List Token → Prop
  | shared {ts ts'} : σ.Shared ts ts' → Parting ts ts'
  | now {ws} : σ.ahead = some ws → Parting [σ.stop] ws

theorem stop_spared {ws : List Token} (h : σ.ahead = some ws) : σ.stop.kind ∈ σ.spared := by
  rw [σ.stop_eof]
  exact σ.spared_eof (by simp [h])

variable {σ} {ts ts' : List Token}

theorem Shared.exists_cons (h : σ.Shared ts ts') : ∃ t us us', ts = t :: us ∧ ts' = t :: us' ∧
    (t.kind ≠ .eof → σ.Parting us us' ∧ (t.kind ≠ .semicolon → σ.Shared us us')) := by
  cases h with
  | same hahead hend =>
    cases ts with
    | nil =>
      obtain ⟨t, ht, -⟩ := hend
      cases ht
    | cons t us =>
      refine ⟨t, us, us, rfl, rfl, fun ht => ?_⟩
      have hus : HasEnd us := by
        obtain ⟨u, hu, he⟩ := hend
        rcases List.mem_cons.mp hu with rfl | hu
        · exact absurd he ht
        · exact ⟨u, hu, he⟩
      exact ⟨.shared (.same hahead hus), fun _ => .same hahead hus⟩
  | @before us s ws hahead hus hs =>
    cases us with
    | nil => exact ⟨s, [σ.stop], ws, rfl, rfl, fun _ => ⟨.now hahead, fun hne => absurd hs hne⟩⟩
    | cons u us =>
      have hshared : σ.Shared (us ++ [s, σ.stop]) (us ++ s :: ws) :=
        .before hahead (fun t ht => hus t (List.mem_cons_of_mem u ht)) hs
      exact ⟨u, _, _, rfl, rfl, fun _ => ⟨.shared hshared, fun _ => hshared⟩⟩

theorem Parting.exists_cons (h : σ.Parting ts ts') :
    (∃ t us us', ts = t :: us ∧ ts' = t :: us' ∧ σ.Shared ts ts') ∨
      ∃ w us, ts = [σ.stop] ∧ ts' = w :: us ∧ σ.ahead = some ts' ∧ w.kind ≠ .elseWord := by
  cases h with
  | shared h =>
    obtain ⟨t, us, us', rfl, rfl, -⟩ := h.exists_cons
    exact .inl ⟨t, us, us', rfl, rfl, h⟩
  | now hahead =>
    cases ts' with
    | nil =>
      obtain ⟨t, ht, -⟩ := σ.ahead_end [] hahead
      cases ht
    | cons w us => exact .inr ⟨w, us, rfl, rfl, hahead, σ.ahead_else _ hahead w rfl⟩

theorem Shared.head_ne_eof {ws : List Token} (h : σ.Shared ts ts') (hahead : σ.ahead = some ws) :
    ∀ t ∈ ts.head?, t.kind ≠ .eof := by
  cases h with
  | same hnone => simp [hnone] at hahead
  | @before us s _ _ hus hs =>
    cases us with
    | nil => simp [hs]
    | cons u us => simpa using hus u List.mem_cons_self

theorem Shared.hasEnd (h : σ.Shared ts ts') : HasEnd ts' := by
  cases h with
  | same _ hend => exact hend
  | before hahead _ _ =>
    obtain ⟨t, ht, he⟩ := σ.ahead_end _ hahead
    exact ⟨t, by simp [ht], he⟩

theorem Parting.ne_nil (h : σ.Parting ts ts') : ts ≠ [] ∧ ts' ≠ [] := by
  rcases h.exists_cons with ⟨t, us, us', rfl, rfl, -⟩ | ⟨w, us, rfl, rfl, -⟩ <;> simp

theorem Parting.toBoundary (h : σ.Parting ts ts') {last : Kind} (hlast : last = .semicolon ∨ σ.Shared ts ts') :
    (toBoundary last ts).1 = (toBoundary last ts').1 ∧ σ.Parting (toBoundary last ts).2 (toBoundary last ts').2 := by
  induction ts generalizing ts' last with
  | nil => rcases h.exists_cons with ⟨t, us, us', hts, -, -⟩ | ⟨w, us, hts, -⟩ <;> cases hts
  | cons t us ih =>
    rcases h.exists_cons with ⟨t', us', us'', hts, rfl, hshared⟩ | ⟨w, us', hts, rfl, -, -⟩
    · cases hts
      by_cases hhere : t.kind = .eof ∨ last = .semicolon ∨ t.kind.startsStatement = true
      · rw [toBoundary_here hhere, toBoundary_here hhere]
        exact ⟨rfl, h⟩
      · obtain ⟨u, vs, vs', hvs, hvs', hrest⟩ := hshared.exists_cons
        cases hvs
        cases hvs'
        obtain ⟨hparting, hnext⟩ := hrest fun he => hhere (.inl he)
        have hnext : t.kind = .semicolon ∨ σ.Shared us us'' := by
          by_cases hk : t.kind = .semicolon
          · exact .inl hk
          · exact .inr (hnext hk)
        obtain ⟨hskipped, hleft⟩ := ih hparting hnext
        rw [toBoundary_behind hhere, toBoundary_behind hhere, hskipped]
        exact ⟨rfl, hleft⟩
    · cases hts
      rcases hlast with rfl | hshared
      · rw [toBoundary_here (.inr (.inl rfl)), toBoundary_here (.inr (.inl rfl))]
        exact ⟨rfl, h⟩
      · obtain ⟨u, vs, vs', hvs, hvs', -⟩ := hshared.exists_cons
        cases hvs
        cases hvs'
        rw [toBoundary_here (.inl σ.stop_eof), toBoundary_here (.inl σ.stop_eof)]
        exact ⟨rfl, h⟩

end Seam

structure Cursor.Beside (σ : Seam) (R : List Token → List Token → Prop) (c c' : Cursor) : Prop where
  rest : R c.rest c'.rest
  said : c'.said = σ.said ++ c.said

theorem Cursor.Beside.push {σ : Seam} {R : List Token → List Token → Prop} {c c' : Cursor} (h : c.Beside σ R c')
    (i i' : Nat) (t : Token) (p : Problem) :
    Cursor.Beside σ R { c with complaints := c.complaints.push ⟨i, t, p⟩ }
      { c' with complaints := c'.complaints.push ⟨i', t, p⟩ } := by
  refine ⟨h.rest, ?_⟩
  have hsaid := h.said
  simp only [Cursor.said] at hsaid
  simp [Cursor.said, hsaid]

namespace Parse

variable {α β : Type} (σ : Seam)

inductive Same (R : List Token → List Token → Prop) :
    EStateM.Result Halt Cursor α → EStateM.Result Halt Cursor α → Prop
  | ok {a d d'} : d.Beside σ R d' → Same R (.ok a d) (.ok a d')
  | error {e d d'} : d.Beside σ σ.Shared d' → Same R (.error e d) (.error e d')

def BlamesSpared (r : EStateM.Result Halt Cursor α) : Prop :=
  (∃ x ∈ (final r).complaints.toList, x.token.kind ∈ σ.spared) ∨
    ∃ d t ts, r = .error .tooDeep d ∧ d.rest = t :: ts ∧ t.kind ∈ σ.spared

def Matching (R : List Token → List Token → Prop) (r r' : EStateM.Result Halt Cursor α) : Prop :=
  BlamesSpared σ r ∨ TooDeep true r' ∨ Same σ R r r'

structure Lockstep (n n' : Nat) (P R : List Token → List Token → Prop) (x y : Parse α) : Prop where
  left : Orderly 0 x
  right : Orderly 0 y
  matching : ∀ c c', c.Beside σ P c' → c.rest.length ≤ n → c'.rest.length ≤ n' → Matching σ R (x c) (y c')

section

variable {σ} {turns : Nat} {c : Cursor}

theorem Orderly.to_zero {x : Parse α} (h : Orderly turns x) : Orderly 0 x :=
  fun c => (h c).mono (Nat.zero_le turns)

theorem orderly_accept?_bind {kinds : List Kind} {f : Option Token → Parse β} (hsome : ∀ t, Orderly turns (f (some t)))
    (hnone : Orderly turns (f none)) : Orderly turns (accept? kinds >>= f) := by
  refine (orderly_accept? kinds).bind fun t? => ?_
  cases t? with
  | some t => exact hsome t
  | none => exact hnone

theorem blamesSpared_bind {x : Parse α} {f : α → Parse β} (h : BlamesSpared σ (x c)) (ho : ∀ a, Orderly turns (f a)) :
    BlamesSpared σ ((x >>= f) c) := by
  rcases h with ⟨y, hy, hk⟩ | ⟨d, t, ts, hd, ht, hk⟩
  · exact .inl ⟨y, (bind_reaches ho x c).complaints.subset hy, hk⟩
  · rw [bind_apply, hd]
    exact .inr ⟨d, t, ts, rfl, ht, hk⟩

theorem blamesSpared_recover {x : Parse α} (h : BlamesSpared σ (x c)) : BlamesSpared σ (recover x c) := by
  rcases h with ⟨y, hy, hk⟩ | ⟨d, t, ts, hd, ht, hk⟩
  · exact .inl ⟨y, (recover_reaches x c).complaints.subset hy, hk⟩
  · exact .inl ⟨_, recover_tooDeep hd ht, hk⟩

end

namespace Lockstep

variable {σ} {n n' : Nat} {P Q R : List Token → List Token → Prop}

theorem pure (a : α) : Lockstep σ n n' P P (pure a) (pure a) :=
  ⟨.pure a, .pure a, fun _ _ h _ _ => .inr (.inr (.ok h))⟩

theorem tooDeep {x : Parse α} (h : Orderly 0 x) : Lockstep σ n n' P R x (throw .tooDeep) :=
  ⟨h, .tooDeep, fun _ c' _ _ _ => .inr (.inl (.inl ⟨c', rfl⟩))⟩

theorem of_parting {x y : Parse α} (h : Lockstep σ n n' σ.Parting R x y) : Lockstep σ n n' σ.Shared R x y :=
  ⟨h.left, h.right, fun c c' hc => h.matching c c' ⟨.shared hc.rest, hc.said⟩⟩

theorem bind {x y : Parse α} {f g : α → Parse β} (h : Lockstep σ n n' P Q x y)
    (hf : ∀ a, Lockstep σ n n' Q R (f a) (g a)) : Lockstep σ n n' P R (x >>= f) (y >>= g) := by
  refine ⟨h.left.bind fun a => (hf a).left, h.right.bind fun a => (hf a).right, fun c c' hc hn hn' => ?_⟩
  have hleft := (h.left c).reaches.length_le
  have hright := (h.right c').reaches.length_le
  rcases h.matching c c' hc hn hn' with hb | hd | hs
  · exact .inl (blamesSpared_bind hb fun a => (hf a).left)
  · exact .inr (.inl (tooDeep_bind hd fun a => (hf a).right))
  · rw [bind_apply, bind_apply]
    generalize x c = r at hs hleft
    generalize y c' = r' at hs hright
    cases hs with
    | ok hd => exact (hf _).matching _ _ hd (Nat.le_trans hleft hn) (Nat.le_trans hright hn')
    | error hd => exact .inr (.inr (.error hd))

theorem ite {p : Prop} [Decidable p] {x y x' y' : Parse α} (h : Lockstep σ n n' P R x y)
    (h' : Lockstep σ n n' P R x' y') : Lockstep σ n n' P R (if p then x else x') (if p then y else y') := by
  split
  · exact h
  · exact h'

theorem enter (r : Rule) : Lockstep σ n n' P P (enter r) (enter r) :=
  ⟨orderly_enter r, orderly_enter r, fun _ _ h _ _ => .inr (.inr (.ok ⟨h.rest, h.said⟩))⟩

theorem complain (i i' : Nat) (t : Token) (p : Problem) : Lockstep σ n n' P P (complain i t p) (complain i' t p) :=
  ⟨orderly_complain i t p, orderly_complain i' t p, fun _ _ h _ _ => .inr (.inr (.ok (h.push i i' t p)))⟩

theorem taken {f g : Nat → Parse α} (h : ∀ i i', Lockstep σ n n' P R (f i) (g i')) :
    Lockstep σ n n' P R (do let c ← get; f c.taken) (do let c ← get; g c.taken) :=
  ⟨fun c => (h c.taken c.taken).left c, fun c => (h c.taken c.taken).right c,
    fun c c' hc => (h c.taken c'.taken).matching c c' hc⟩

theorem accept? (kinds : List Kind) (hk : .semicolon ∉ kinds) :
    Lockstep σ n n' σ.Shared σ.Shared (accept? kinds) (accept? kinds) := by
  refine ⟨orderly_accept? kinds, orderly_accept? kinds, fun c c' h _ _ => .inr (.inr ?_)⟩
  obtain ⟨t, us, us', hc, hc', hrest⟩ := h.rest.exists_cons
  rw [accept?_cons kinds hc, accept?_cons kinds hc']
  split
  · rename_i ht
    have hne : t.kind ≠ .semicolon := fun he => hk (he ▸ ht.2)
    exact .ok ⟨(hrest ht.1).2 hne, h.said⟩
  · exact .ok h

theorem peek : Lockstep σ n n' σ.Shared σ.Shared peek peek := by
  refine ⟨orderly_peek, orderly_peek, fun c c' h _ _ => .inr (.inr ?_)⟩
  obtain ⟨t, us, us', hc, hc', -⟩ := h.rest.exists_cons
  simp only [Parse.peek, hc, hc']
  exact .ok h

theorem complainHere (p : Problem) : Lockstep σ n n' σ.Shared σ.Shared (complainHere p) (complainHere p) := by
  refine ⟨orderly_complainHere p, orderly_complainHere p, fun c c' h hn hn' => ?_⟩
  obtain ⟨t, us, us', hc, hc', -⟩ := h.rest.exists_cons
  have hmatching := (complain c.taken c'.taken t p).matching c c' h hn hn'
  simpa only [Parse.complainHere, hc, hc'] using hmatching

theorem fail {p : Problem} (hp : p ≠ .invalidAssignmentTarget) :
    Lockstep σ n n' σ.Shared R (fail p : Parse α) (fail p) := by
  refine ⟨orderly_fail hp, orderly_fail hp, fun c c' h _ _ => .inr (.inr ?_)⟩
  obtain ⟨t, us, us', hc, hc', -⟩ := h.rest.exists_cons
  rw [fail_apply hc, fail_apply hc']
  exact .error (h.push c.taken c'.taken t p)

theorem fewer {m m' : Nat} {x y : Parse α} (h : Lockstep σ n n' P R x y) (hm : m ≤ n) (hm' : m' ≤ n') :
    Lockstep σ m m' P R x y :=
  ⟨h.left, h.right, fun c c' hc hn hn' => h.matching c c' hc (Nat.le_trans hn hm) (Nat.le_trans hn' hm')⟩

theorem accept?_next {kinds : List Kind} {f g : Option Token → Parse β}
    (hnext : ∀ {k us us'}, k ∈ kinds → σ.Parting us us' → (k ≠ .semicolon → σ.Shared us us') → Q us us')
    (hsome : ∀ t, Lockstep σ (n - 1) (n' - 1) Q R (f (some t)) (g (some t)))
    (hnone : Lockstep σ n n' σ.Shared R (f none) (g none)) :
    Lockstep σ n n' σ.Shared R (Parse.accept? kinds >>= f) (Parse.accept? kinds >>= g) := by
  refine ⟨orderly_accept?_bind (fun t => (hsome t).left) hnone.left,
    orderly_accept?_bind (fun t => (hsome t).right) hnone.right, fun c c' h hn hn' => ?_⟩
  obtain ⟨t, us, us', hc, hc', hrest⟩ := h.rest.exists_cons
  rw [bind_apply, bind_apply, accept?_cons kinds hc, accept?_cons kinds hc']
  by_cases ht : t.kind ≠ .eof ∧ t.kind ∈ kinds
  · rw [if_pos ht, if_pos ht]
    rw [hc, List.length_cons] at hn
    rw [hc', List.length_cons] at hn'
    obtain ⟨hparting, hshared⟩ := hrest ht.1
    exact (hsome t).matching _ _ ⟨hnext ht.2 hparting hshared, h.said⟩ (Nat.le_sub_one_of_lt hn) (Nat.le_sub_one_of_lt hn')
  · rw [if_neg ht, if_neg ht]
    exact hnone.matching c c' h hn hn'

theorem accept?_bind {kinds : List Kind} {f g : Option Token → Parse β}
    (hsome : ∀ t, Lockstep σ n n' σ.Parting R (f (some t)) (g (some t)))
    (hnone : Lockstep σ n n' σ.Shared R (f none) (g none)) :
    Lockstep σ n n' σ.Shared R (Parse.accept? kinds >>= f) (Parse.accept? kinds >>= g) :=
  accept?_next (fun _ hparting _ => hparting) (fun t => (hsome t).fewer (Nat.sub_le n 1) (Nat.sub_le n' 1)) hnone

theorem accept?_step {kinds : List Kind} (hk : .semicolon ∉ kinds) {f g : Option Token → Parse β}
    (hsome : ∀ t, Lockstep σ n n' σ.Shared R (f (some t)) (g (some t)))
    (hnone : Lockstep σ (n + 1) (n' + 1) σ.Shared R (f none) (g none)) :
    Lockstep σ (n + 1) (n' + 1) σ.Shared R (Parse.accept? kinds >>= f) (Parse.accept? kinds >>= g) :=
  accept?_next (fun ht _ hshared => hshared fun he => hk (he ▸ ht)) hsome hnone

theorem accept?_else {f g : Option Token → Parse β} (hsome : ∀ t, Lockstep σ n n' σ.Parting R (f (some t)) (g (some t)))
    (hnone : Lockstep σ n n' σ.Parting R (f none) (g none)) :
    Lockstep σ n n' σ.Parting R (Parse.accept? [.elseWord] >>= f) (Parse.accept? [.elseWord] >>= g) := by
  have hshared : Lockstep σ n n' σ.Shared R (Parse.accept? [.elseWord] >>= f) (Parse.accept? [.elseWord] >>= g) :=
    accept?_bind hsome hnone.of_parting
  refine ⟨hshared.left, hshared.right, fun c c' hc hn hn' => ?_⟩
  rcases hc.rest.exists_cons with ⟨t, us, us', -, -, hrest⟩ | ⟨w, us, hstop, hw, -, hne⟩
  · exact hshared.matching c c' ⟨hrest, hc.said⟩ hn hn'
  · have hend : ¬ (σ.stop.kind ≠ .eof ∧ σ.stop.kind ∈ [Kind.elseWord]) := fun h => h.1 σ.stop_eof
    have hnot : ¬ (w.kind ≠ .eof ∧ w.kind ∈ [Kind.elseWord]) := fun h => hne (List.mem_singleton.mp h.2)
    rw [bind_apply, bind_apply, accept?_cons _ hstop, accept?_cons _ hw, if_neg hend, if_neg hnot]
    exact hnone.matching c c' hc hn hn'

theorem none_left {x y : Parse α} (hx : Orderly 0 x) (hy : Orderly 0 y) (h : n = 0 ∨ n' = 0) :
    Lockstep σ n n' σ.Shared R x y := by
  refine ⟨hx, hy, fun c c' hc hn hn' => ?_⟩
  obtain ⟨t, us, us', hr, hr', -⟩ := hc.rest.exists_cons
  rw [hr, List.length_cons] at hn
  rw [hr', List.length_cons] at hn'
  omega

theorem expect (kind : Kind) (e : Expected) : Lockstep σ n n' σ.Shared σ.Parting (expect kind e) (expect kind e) :=
  accept?_bind (fun t => .pure t) (.fail (by simp))

theorem expect_shared {kind : Kind} (hk : kind ≠ .semicolon) (e : Expected) :
    Lockstep σ n n' σ.Shared σ.Shared (Parse.expect kind e) (Parse.expect kind e) := by
  refine (Lockstep.accept? [kind] fun hm => hk (List.mem_singleton.mp hm).symm).bind fun t? => ?_
  cases t? with
  | some t => exact .pure t
  | none => exact .fail (by simp)

theorem synchronize : Lockstep σ n n' σ.Shared σ.Parting synchronize synchronize := by
  refine ⟨orderly_synchronize, orderly_synchronize, fun c c' h _ _ => .inr (.inr ?_)⟩
  obtain ⟨t, us, us', hc, hc', hrest⟩ := h.rest.exists_cons
  rw [synchronize_cons hc, synchronize_cons hc']
  by_cases he : t.kind = .eof
  · rw [if_pos he, if_pos he]
    exact .ok ⟨.shared h.rest, h.said⟩
  · rw [if_neg he, if_neg he]
    obtain ⟨hparting, hshared⟩ := hrest he
    have hlast : t.kind = .semicolon ∨ σ.Shared us us' := by
      by_cases hs : t.kind = .semicolon
      · exact .inl hs
      · exact .inr (hshared hs)
    obtain ⟨hskipped, hleft⟩ := hparting.toBoundary hlast
    obtain ⟨hne, hne'⟩ := hleft.ne_nil
    rw [List.isEmpty_eq_false_iff.mpr hne, List.isEmpty_eq_false_iff.mpr hne']
    exact .ok ⟨hleft, h.said⟩

theorem recover {x y : Parse α} (h : Lockstep σ n n' σ.Shared σ.Parting x y) :
    Lockstep σ n n' σ.Shared σ.Parting (recover x) (recover y) := by
  refine ⟨orderly_recover h.left, orderly_recover h.right, fun c c' hc hn hn' => ?_⟩
  have hleft := (h.left c).reaches.length_le
  have hright := (h.right c').reaches.length_le
  have hsync : Lockstep σ n n' σ.Shared σ.Parting (do Parse.synchronize; return none : Parse (Option α))
      (do Parse.synchronize; return none) := synchronize.bind fun _ => .pure none
  rcases h.matching c c' hc hn hn' with hb | hd | hs
  · exact .inl (blamesSpared_recover hb)
  · exact .inr (.inl (tooDeep_recover h.right hc.rest.hasEnd hd))
  · unfold Parse.recover
    generalize x c = r at hs hleft ⊢
    generalize y c' = r' at hs hright ⊢
    cases hs with
    | ok hd => exact .inr (.inr (.ok hd))
    | @error e d d' hd =>
      have hlen := Nat.le_trans hleft hn
      have hlen' := Nat.le_trans hright hn'
      cases e with
      | complained => exact hsync.matching d d' hd hlen hlen'
      | noEnd => exact .inr (.inr (.error hd))
      | tooDeep => exact ((complainHere _).bind fun _ => hsync).matching d d' hd hlen hlen'

end Lockstep

end Parse

end Lox
