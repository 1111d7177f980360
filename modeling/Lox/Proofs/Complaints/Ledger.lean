import Mathlib.Data.List.Perm.Subperm
import Lox.Proofs.Recovery.Rules

/-!
Which tokens are complained about while tokens up to an end token are read: a part that succeeds has complained about
tokens that it took, one that gives up also about the next token, and going on behind it takes that token too unless it
is the end token. Main statements: `Tallied.bind`, `Tallied.recover` and `untilKind_settles`.
-/
namespace Lox

open Parse

structure Ended where
  before : List Token
  last : Token
  behind : List Token
  before_ne : ∀ t ∈ before, t.kind ≠ .eof
  last_eof : last.kind = .eof

namespace Ended

def tokens (σ : Ended) : List Token :=
  σ.before ++ σ.last :: σ.behind

def place (σ : Ended) : Nat :=
  σ.before.length

theorem exists_of_mem {tokens : List Token} (h : ∃ t ∈ tokens, t.kind = .eof) :
    ∃ σ : Ended, tokens = σ.tokens ∧ tokens.takeWhile (·.kind ≠ .eof) = σ.before := by
  obtain ⟨t, ht, heof⟩ := h
  obtain ⟨last, before, behind, hbefore, hlast, rfl, -⟩ :=
    List.exists_of_eraseP (p := fun t : Token => t.kind = .eof) ht (decide_eq_true heof)
  simp only [decide_eq_true_eq] at hbefore hlast
  refine ⟨⟨before, last, behind, hbefore, hlast⟩, rfl, ?_⟩
  rw [List.takeWhile_append_of_pos fun t ht => decide_eq_true (hbefore t ht),
    List.takeWhile_cons_of_neg (by simp [hlast]), List.append_nil]

theorem eof_iff (σ : Ended) {i : Nat} {t : Token} (ht : σ.tokens[i]? = some t) (hi : i ≤ σ.place) :
    t.kind = .eof ↔ i = σ.place := by
  rcases Nat.lt_or_eq_of_le hi with hlt | rfl
  · rw [tokens, List.getElem?_append_left hlt] at ht
    have hkind := σ.before_ne t (List.mem_of_getElem? ht)
    simp [hkind, Nat.ne_of_lt hlt]
  · rw [tokens, place, List.getElem?_append_right (Nat.le_refl _), Nat.sub_self] at ht
    cases ht
    simp [σ.last_eof]

end Ended

def braces (ts : List Token) : Nat :=
  ts.countP (·.kind = .leftBrace)

def Complaint.Before (σ : Ended) (x y : Complaint) : Prop :=
  (x.index = y.index → x.index = σ.place) ∧
    (x.problem ≠ .invalidAssignmentTarget → y.problem ≠ .invalidAssignmentTarget → x.index ≤ y.index)

def endings (σ : Ended) (xs : List Complaint) : Nat :=
  xs.countP (·.index = σ.place)

theorem endings_append (σ : Ended) (xs ys : List Complaint) :
    endings σ (xs ++ ys) = endings σ xs + endings σ ys :=
  List.countP_append

namespace Cursor

variable {σ : Ended} {c d f : Cursor} {t : Token} {ts : List Token} {xs ys : List Complaint} {slack : Nat}

theorem Reaches.taken_le (h : c.Reaches d) : c.taken ≤ d.taken := by
  obtain ⟨ts, -, -, htaken⟩ := h.tokens
  omega

theorem Reaches.braces_le (h : c.Reaches d) : braces c.consumed ≤ braces d.consumed := by
  obtain ⟨ts, hts, -, -⟩ := h.tokens
  rw [h.consumed_eq hts, braces, braces, List.countP_append]
  omega

structure Along (σ : Ended) (c : Cursor) : Prop where
  taken : c.taken = c.consumed.length
  ahead : ∃ ahead, σ.before = c.consumed ++ ahead ∧ c.rest = ahead ++ σ.last :: σ.behind

namespace Along

theorem start (σ : Ended) : (Cursor.start σ.tokens).Along σ :=
  ⟨rfl, σ.before, rfl, rfl⟩

theorem taken_le (h : c.Along σ) : c.taken ≤ σ.place := by
  obtain ⟨ahead, hbefore, -⟩ := h.ahead
  rw [h.taken, Ended.place, hbefore, List.length_append]
  omega

theorem braces_le (h : c.Along σ) : braces c.consumed ≤ braces σ.before := by
  obtain ⟨ahead, hbefore, -⟩ := h.ahead
  rw [hbefore, braces, braces, List.countP_append]
  omega

theorem getElem? (h : c.Along σ) (hc : c.rest = t :: ts) : σ.tokens[c.taken]? = some t := by
  obtain ⟨ahead, hbefore, hrest⟩ := h.ahead
  rw [h.taken, Ended.tokens, hbefore, List.append_assoc, ← hrest, hc]
  simp

theorem eof_iff (h : c.Along σ) (hc : c.rest = t :: ts) : t.kind = .eof ↔ c.taken = σ.place :=
  σ.eof_iff (h.getElem? hc) h.taken_le

theorem rest_cons (h : c.Along σ) : ∃ t ts, c.rest = t :: ts := by
  obtain ⟨ahead, -, hrest⟩ := h.ahead
  exact List.exists_cons_of_ne_nil (by simp [hrest])

theorem reaches (h : c.Along σ) (hd : c.Reaches d) : d.Along σ := by
  obtain ⟨ts, hts, hte, htaken⟩ := hd.tokens
  have hconsumed := hd.consumed_eq hts
  obtain ⟨ahead, hbefore, hrest⟩ := h.ahead
  refine ⟨by rw [htaken, h.taken, hconsumed, List.length_append], ?_⟩
  rw [hconsumed, hbefore]
  -- the tokens taken on the way end before the end token
  rcases List.append_eq_append_iff.mp (hrest.symm.trans hts) with ⟨us, rfl, hbehind⟩ | ⟨us, rfl, hd⟩
  · cases us with
    | nil => exact ⟨[], by simp, hbehind.symm⟩
    | cons u us =>
      have hlast : σ.last = u := (List.cons.inj hbehind).1
      exact absurd σ.last_eof (hte σ.last (by simp [hlast]))
  · exact ⟨us, (List.append_assoc _ _ _).symm, hd⟩

end Along

structure Said (σ : Ended) (c d : Cursor) (xs : List Complaint) : Prop where
  along : c.Along σ
  reaches : c.Reaches d
  complaints : d.complaints.toList = c.complaints.toList ++ xs
  tokens : ∀ x ∈ xs, σ.tokens[x.index]? = some x.token
  within : ∀ x ∈ xs, c.taken ≤ x.index ∧ x.index ≤ d.taken
  pairwise : xs.Pairwise (Complaint.Before σ)

namespace Said

theorem arrives (h : c.Said σ d xs) : d.Along σ :=
  h.along.reaches h.reaches

theorem none (hc : c.Along σ) (h : c.Reaches d) (hcomplaints : d.complaints = c.complaints) : c.Said σ d [] :=
  ⟨hc, h, by rw [hcomplaints, List.append_nil], List.forall_mem_nil _, List.forall_mem_nil _, .nil⟩

theorem one (h : c.Along σ) (hc : c.rest = t :: ts) (p : Problem) :
    c.Said σ { c with complaints := c.complaints.push ⟨c.taken, t, p⟩ } [⟨c.taken, t, p⟩] := by
  refine ⟨h, reaches_complain _ _ _ c, Array.toList_push, ?_, ?_, List.pairwise_singleton _ _⟩
  · exact List.forall_mem_singleton.mpr (h.getElem? hc)
  · exact List.forall_mem_singleton.mpr ⟨Nat.le_refl _, Nat.le_refl _⟩

theorem append (h : c.Said σ d xs) (hlt : ∀ x ∈ xs, x.index < d.taken ∨ d.taken = σ.place) (h' : d.Said σ f ys) :
    c.Said σ f (xs ++ ys) := by
  have hcd := h.reaches.taken_le
  have hdf := h'.reaches.taken_le
  refine ⟨h.along, h.reaches.trans h'.reaches, ?_, ?_, ?_, ?_⟩
  · rw [h'.complaints, h.complaints, List.append_assoc]
  · exact List.forall_mem_append.mpr ⟨h.tokens, h'.tokens⟩
  · refine List.forall_mem_append.mpr ⟨fun x hx => ?_, fun y hy => ?_⟩
    · have hwithin := h.within x hx
      omega
    · have hwithin := h'.within y hy
      omega
  · refine List.pairwise_append.mpr ⟨h.pairwise, h'.pairwise, fun x hx y hy => ?_⟩
    have hxd := (h.within x hx).2
    have hdy := (h'.within y hy).1
    have hplace := hlt x hx
    constructor
    · intro heq
      omega
    · intro _ _
      omega

variable {x : Complaint}

theorem index_le (h : c.Said σ d xs) (hx : x ∈ xs) : x.index ≤ σ.place :=
  Nat.le_trans (h.within x hx).2 h.arrives.taken_le

theorem eof_iff (h : c.Said σ d xs) (hx : x ∈ xs) : x.token.kind = .eof ↔ x.index = σ.place :=
  σ.eof_iff (h.tokens x hx) (h.index_le hx)

theorem nodup (h : c.Said σ d xs) : ((xs.filter (·.token.kind ≠ .eof)).map Complaint.index).Nodup := by
  rw [List.Nodup, List.pairwise_map, List.pairwise_filter]
  refine h.pairwise.imp_of_mem fun hx _ hxy hkind _ heq => ?_
  exact of_decide_eq_true hkind ((h.eof_iff hx).mpr (hxy.1 heq))

theorem ordered (h : c.Said σ d xs) : (xs.filter (·.problem ≠ .invalidAssignmentTarget)).Pairwise fun x y =>
    x.index ≤ y.index ∧ (x.token.kind ≠ .eof → x.index < y.index) := by
  rw [List.pairwise_filter]
  refine h.pairwise.imp_of_mem fun hx _ hxy hpx hpy => ?_
  have hle := hxy.2 (of_decide_eq_true hpx) (of_decide_eq_true hpy)
  exact ⟨hle, fun hkind => Nat.lt_of_le_of_ne hle fun heq => hkind ((h.eof_iff hx).mpr (hxy.1 heq))⟩

theorem countP_eof (h : c.Said σ d xs) : xs.countP (·.token.kind = .eof) = endings σ xs :=
  List.countP_congr fun x hx => by simp [h.eof_iff hx]

theorem endings_eq_zero (h : c.Said σ d xs) (hlt : ∀ x ∈ xs, x.index < d.taken) : endings σ xs = 0 := by
  have hplace := h.arrives.taken_le
  apply List.countP_eq_zero.mpr
  intro x hx
  have hindex := hlt x hx
  simp only [decide_eq_true_eq]
  omega

theorem length_le (h : c.Said σ d xs) : xs.length ≤ σ.place + endings σ xs := by
  have hsub : (xs.filter (·.token.kind ≠ .eof)).map Complaint.index ⊆ List.range σ.place := by
    intro i hi
    obtain ⟨x, hx, rfl⟩ := List.mem_map.mp hi
    obtain ⟨hx, hkind⟩ := List.mem_filter.mp hx
    have hne : x.index ≠ σ.place := fun heq => of_decide_eq_true hkind ((h.eof_iff hx).mpr heq)
    exact List.mem_range.mpr (Nat.lt_of_le_of_ne (h.index_le hx) hne)
  have hlen := (List.subperm_of_subset h.nodup hsub).length_le
  rw [List.length_map, List.length_range, ← List.countP_eq_length_filter] at hlen
  have hall : xs.length = xs.countP (·.token.kind = .eof) + xs.countP (·.token.kind ≠ .eof) := by
    simpa using List.length_eq_countP_add_countP (fun x : Complaint => decide (x.token.kind = .eof)) (l := xs)
  rw [h.countP_eof] at hall
  omega

end Said

def Quiet (σ : Ended) (c d : Cursor) : Prop :=
  ∃ xs, c.Said σ d xs ∧ ∀ x ∈ xs, x.index < d.taken

def Loud (σ : Ended) (slack : Nat) (c d : Cursor) : Prop :=
  ∃ xs, c.Said σ d xs ∧ endings σ xs + braces c.consumed ≤ braces d.consumed + 1 + slack

namespace Quiet

theorem none (hc : c.Along σ) (h : c.Reaches d) (hcomplaints : d.complaints = c.complaints) : c.Quiet σ d :=
  ⟨[], .none hc h hcomplaints, List.forall_mem_nil _⟩

theorem refl (hc : c.Along σ) : c.Quiet σ c :=
  none hc (.refl c) rfl

theorem accepted (h : c.Along σ) (hc : c.rest = t :: ts) (ht : t.kind ≠ .eof) : c.Quiet σ (skip [t] ts c) :=
  none h (reaches_skip hc (by simpa using ht)) rfl

theorem along (h : c.Quiet σ d) : d.Along σ := by
  obtain ⟨xs, hs, -⟩ := h
  exact hs.arrives

theorem trans (h : c.Quiet σ d) (h' : d.Quiet σ f) : c.Quiet σ f := by
  obtain ⟨xs, hs, hlt⟩ := h
  obtain ⟨ys, hs', hlt'⟩ := h'
  refine ⟨xs ++ ys, hs.append (fun x hx => .inl (hlt x hx)) hs', List.forall_mem_append.mpr ⟨fun x hx => ?_, hlt'⟩⟩
  exact Nat.lt_of_lt_of_le (hlt x hx) hs'.reaches.taken_le

theorem loud {more : Nat} (h : c.Quiet σ d) (hbraces : braces c.consumed + more ≤ braces d.consumed)
    (h' : d.Loud σ (slack + more) f) : c.Loud σ slack f := by
  obtain ⟨xs, hs, hlt⟩ := h
  obtain ⟨ys, hs', hends⟩ := h'
  refine ⟨xs ++ ys, hs.append (fun x hx => .inl (hlt x hx)) hs', ?_⟩
  rw [endings_append, hs.endings_eq_zero hlt]
  omega

theorem braces_le (h : c.Quiet σ d) : braces c.consumed + 0 ≤ braces d.consumed := by
  obtain ⟨xs, hs, -⟩ := h
  exact hs.reaches.braces_le

theorem target (hc : c.rest = t :: ts) (hquiet : c.Quiet σ (skip [t] ts c)) (h : (skip [t] ts c).Quiet σ d) :
    c.Quiet σ { d with complaints := d.complaints.push ⟨c.taken, t, .invalidAssignmentTarget⟩ } := by
  obtain ⟨ws, hskip, -⟩ := hquiet
  obtain ⟨xs, hs, hlt⟩ := h
  have htaken : c.taken < d.taken := hs.reaches.taken_le
  have hlow : ∀ x ∈ xs, c.taken < x.index := fun x hx => (hs.within x hx).1
  refine ⟨xs ++ [⟨c.taken, t, .invalidAssignmentTarget⟩], ⟨hskip.along, ?_, ?_, ?_, ?_, ?_⟩, ?_⟩
  · exact (hskip.reaches.trans hs.reaches).trans (reaches_complain _ _ _ d)
  · rw [Array.toList_push, hs.complaints, List.append_assoc]
    rfl
  · exact List.forall_mem_append.mpr ⟨hs.tokens, List.forall_mem_singleton.mpr (hskip.along.getElem? hc)⟩
  · refine List.forall_mem_append.mpr ⟨fun x hx => ?_, List.forall_mem_singleton.mpr ⟨Nat.le_refl _, ?_⟩⟩
    · exact ⟨Nat.le_of_lt (hlow x hx), (hs.within x hx).2⟩
    · exact Nat.le_of_lt htaken
  · refine List.pairwise_append.mpr ⟨hs.pairwise, List.pairwise_singleton _ _, fun x hx y hy => ?_⟩
    cases List.mem_singleton.mp hy
    exact ⟨fun heq => absurd heq (Nat.ne_of_gt (hlow x hx)), fun _ htarget => absurd rfl htarget⟩
  · exact List.forall_mem_append.mpr ⟨hlt, List.forall_mem_singleton.mpr htaken⟩

end Quiet

theorem Loud.refl (hc : c.Along σ) : c.Loud σ slack c :=
  ⟨[], .none hc (.refl c) rfl, by rw [endings, List.countP_nil]; omega⟩

theorem Loud.along (h : c.Loud σ slack d) : d.Along σ := by
  obtain ⟨xs, hs, -⟩ := h
  exact hs.arrives

theorem Loud.again (h : c.Loud σ slack d) (hplace : d.taken = σ.place) (h' : d.Loud σ 0 f) :
    c.Loud σ (slack + 1) f := by
  obtain ⟨xs, hs, hends⟩ := h
  obtain ⟨ys, hs', hends'⟩ := h'
  refine ⟨xs ++ ys, hs.append (fun _ _ => .inr hplace) hs', ?_⟩
  rw [endings_append]
  omega

theorem Loud.one (h : c.Along σ) (hc : c.rest = t :: ts) (p : Problem) :
    c.Loud σ slack { c with complaints := c.complaints.push ⟨c.taken, t, p⟩ } := by
  refine ⟨_, .one h hc p, ?_⟩
  have hends : endings σ [⟨c.taken, t, p⟩] ≤ 1 := List.countP_le_length
  change _ ≤ braces c.consumed + 1 + slack
  omega

end Cursor

namespace Parse

variable {α β : Type} {σ : Ended} {slack : Nat} {c d : Cursor} {t : Token} {ts : List Token}

def Tells (σ : Ended) (slack : Nat) (c : Cursor) : EStateM.Result Halt Cursor α → Prop
  | .ok _ d | .error .tooDeep d => c.Quiet σ d
  | .error .complained d => c.Loud σ slack d
  | .error .noEnd _ => True

def Tallied (σ : Ended) (slack : Nat) (x : Parse α) : Prop :=
  ∀ c, c.Along σ → Tells σ slack c (x c)

theorem Tells.error {e : Halt} (h : Tells σ slack c (.error e d : EStateM.Result Halt Cursor α)) :
    Tells σ slack c (.error e d : EStateM.Result Halt Cursor β) := by
  cases e <;> exact h

theorem Tells.after {more : Nat} {r : EStateM.Result Halt Cursor α} (hcd : c.Quiet σ d)
    (hbraces : braces c.consumed + more ≤ braces d.consumed) (h : Tells σ (slack + more) d r) : Tells σ slack c r := by
  cases r with
  | ok a f => exact hcd.trans h
  | error e f =>
    cases e with
    | tooDeep => exact hcd.trans h
    | complained => exact hcd.loud hbraces h
    | noEnd => trivial

theorem Tells.trans {r : EStateM.Result Halt Cursor α} (hcd : c.Quiet σ d) (h : Tells σ slack d r) :
    Tells σ slack c r :=
  .after hcd hcd.braces_le h

namespace Tallied

variable {x y : Parse α}

theorem bind {f : α → Parse β} (hx : Tallied σ slack x) (hf : ∀ a, Tallied σ slack (f a)) :
    Tallied σ slack (x >>= f) := by
  intro c hc
  have h := hx c hc
  rw [bind_apply]
  cases hxc : x c with
  | ok a d =>
    rw [hxc] at h
    exact .trans h (hf a d (Cursor.Quiet.along h))
  | error e d =>
    rw [hxc] at h
    exact h.error

theorem pure (a : α) : Tallied σ slack (pure a : Parse α) :=
  fun _ hc => .refl hc

theorem tooDeep : Tallied σ slack (throw .tooDeep : Parse α) :=
  fun _ hc => Cursor.Quiet.refl hc

theorem noEnd : Tallied σ slack (throw .noEnd : Parse α) :=
  fun _ _ => trivial

theorem map (f : α → β) (hx : Tallied σ slack x) : Tallied σ slack (f <$> x) :=
  hx.bind fun a => .pure (f a)

theorem ite {p : Prop} [Decidable p] (hx : Tallied σ slack x) (hy : Tallied σ slack y) :
    Tallied σ slack (if p then x else y) := by
  split
  · exact hx
  · exact hy

theorem enter (r : Rule) : Tallied σ slack (enter r) := by
  intro c hc
  have hreaches : Outcome 0 c (Parse.enter r c) := orderly_enter r c
  exact .none hc hreaches rfl

theorem peek : Tallied σ slack peek := by
  intro c hc
  unfold Parse.peek
  split
  · trivial
  · exact .refl hc

theorem accept? (kinds : List Kind) : Tallied σ slack (accept? kinds) := by
  intro c halong
  obtain ⟨t, ts, hc⟩ := halong.rest_cons
  rw [accept?_cons kinds hc]
  split
  · rename_i ht
    exact .accepted halong hc ht.1
  · exact .refl halong

theorem fail (p : Problem) : Tallied σ slack (fail p : Parse α) := by
  intro c halong
  obtain ⟨t, ts, hc⟩ := halong.rest_cons
  rw [fail_apply hc]
  exact Cursor.Loud.one halong hc p

theorem expect (kind : Kind) (e : Expected) : Tallied σ slack (expect kind e) := by
  refine (accept? [kind]).bind fun t? => ?_
  cases t? with
  | some t => exact .pure t
  | none => exact .fail _

theorem assignedIf {value : Parse Node} (h : Tallied σ slack value) (target : Node) :
    Tallied σ slack (do Descent.assignedIf value target (← get).taken) := by
  intro c halong
  change Tells σ slack c (Descent.assignedIf value target c.taken c)
  unfold Descent.assignedIf
  obtain ⟨t, ts, hc⟩ := halong.rest_cons
  by_cases ht : t.kind = .equal
  · have hskip : c.Quiet σ (skip [t] ts c) := .accepted halong hc (by simp [ht])
    have hvalue := h _ hskip.along
    rw [accept?_bind_of_mem hc (by simp [ht]) (by simp [ht])]
    change Tells σ slack c ((value >>= fun v => Descent.assigned c.taken t target v) (skip [t] ts c))
    rw [bind_apply]
    cases hx : value (skip [t] ts c) with
    | error e d =>
      rw [hx] at hvalue
      exact (Tells.trans hskip hvalue).error
    | ok v d =>
      rw [hx] at hvalue
      dsimp only
      unfold Descent.assigned
      split
      · exact hskip.trans hvalue
      · exact Cursor.Quiet.target hc hskip hvalue
  · rw [accept?_bind_of_not_mem hc (by simp [ht])]
    exact Cursor.Quiet.refl halong

theorem braced {x y : Parse Node} (hx : Tallied σ (slack + 1) x) (hy : Tallied σ slack y) :
    Tallied σ slack (do if (← Parse.accept? [.leftBrace]).isSome then x else y) := by
  intro c halong
  obtain ⟨t, ts, hc⟩ := halong.rest_cons
  by_cases ht : t.kind = .leftBrace
  · have hskip : c.Quiet σ (skip [t] ts c) := .accepted halong hc (by simp [ht])
    have hbraces : braces (skip [t] ts c).consumed = braces c.consumed + 1 := by
      rw [consumed_skip, braces, List.countP_append]
      simp [braces, ht]
    rw [accept?_ite_of_mem hc (by simp [ht]) (by simp [ht])]
    exact .after hskip (Nat.le_of_eq hbraces.symm) (hx _ hskip.along)
  · rw [accept?_ite_of_not_mem hc (by simp [ht])]
    exact hy c halong

end Tallied

def Settles (σ : Ended) (c : Cursor) : EStateM.Result Halt Cursor α → Prop
  | .ok _ d => c.Quiet σ d ∨ d.taken = σ.place ∧ c.Loud σ 0 d
  | .error .tooDeep d => c.Quiet σ d
  | .error .complained _ => False
  | .error .noEnd _ => True

theorem Settles.after {r : EStateM.Result Halt Cursor α} (hcd : c.Quiet σ d) (h : Settles σ d r) : Settles σ c r := by
  cases r with
  | ok a f => exact h.imp hcd.trans fun h => ⟨h.1, hcd.loud hcd.braces_le h.2⟩
  | error e f =>
    cases e with
    | tooDeep => exact hcd.trans h
    | complained => cases h
    | noEnd => trivial

theorem synchronize_settles (h : c.Loud σ 0 d) :
    Settles σ c ((do synchronize; return none : Parse (Option α)) d) := by
  obtain ⟨xs, hs, hends⟩ := h
  rw [bind_apply]
  cases hd : d.rest with
  | nil =>
    rw [synchronize, hd]
    trivial
  | cons t ts =>
    rw [synchronize_cons hd]
    by_cases ht : t.kind = .eof
    · rw [if_pos ht]
      exact .inr ⟨(hs.arrives.eof_iff hd).mp ht, xs, hs, hends⟩
    · rw [if_neg ht]
      dsimp only
      by_cases hend : (toBoundary t.kind ts).2.isEmpty = true
      · rw [if_pos hend]
        trivial
      -- the token that is blamed is skipped
      · rw [if_neg hend]
        have hskip := reaches_boundary hd ht
        refine .inl ⟨xs, ⟨hs.along, hs.reaches.trans hskip, hs.complaints, hs.tokens, ?_, hs.pairwise⟩, ?_⟩
        · intro x hx
          exact ⟨(hs.within x hx).1, Nat.le_trans (hs.within x hx).2 hskip.taken_le⟩
        · intro x hx
          have hlen : d.taken < d.taken + (t :: (toBoundary t.kind ts).1).length := by simp
          exact Nat.lt_of_le_of_lt (hs.within x hx).2 hlen

theorem Tallied.recover {x : Parse α} (h : Tallied σ 0 x) : ∀ c, c.Along σ → Settles σ c (recover x c) := by
  intro c hc
  have hx := h c hc
  unfold Parse.recover
  cases hxc : x c with
  | ok a d =>
    rw [hxc] at hx
    exact .inl hx
  | error e d =>
    rw [hxc] at hx
    cases e with
    | complained => exact synchronize_settles hx
    | noEnd => trivial
    | tooDeep =>
      have hquiet : c.Quiet σ d := hx
      dsimp only
      rw [bind_apply]
      cases hd : d.rest with
      | nil =>
        rw [complainHere, hd]
        trivial
      | cons t ts =>
        rw [complainHere, hd]
        exact synchronize_settles (hquiet.loud hquiet.braces_le (.one hquiet.along hd _))

theorem untilKind_settles {kinds : List Kind} (heof : .eof ∈ kinds) {part : Parse (Option Node)}
    (h : ∀ c, c.Along σ → Settles σ c (part c)) :
    ∀ n before c, c.Along σ → Settles σ c (untilKind kinds part n before c) := by
  intro n
  induction n with
  | zero => exact fun _ _ _ => trivial
  | succ n ih =>
    intro before c halong
    cases hc : c.rest with
    | nil =>
      rw [untilKind, bind_apply, peek, hc]
      trivial
    | cons t ts =>
      by_cases hk : t.kind ∈ kinds
      · rw [Descent.untilKind_here hc hk]
        exact .inl (.refl halong)
      rw [untilKind, peek_bind hc, if_neg hk, bind_apply]
      have hpart := h c halong
      cases hpc : part c with
      | error e d =>
        rw [hpc] at hpart
        cases e <;> exact hpart
      | ok a d =>
        rw [hpc] at hpart
        rcases hpart with hquiet | ⟨hplace, hloud⟩
        · exact .after hquiet (ih _ d hquiet.along)
        -- nothing is tried at the end token, so nothing more is complained about
        · obtain ⟨u, us, hd⟩ := hloud.along.rest_cons
          have hu : u.kind ∈ kinds := (hloud.along.eof_iff hd).mpr hplace ▸ heof
          cases n with
          | zero => trivial
          | succ n =>
            dsimp only
            rw [Descent.untilKind_here hd hu]
            exact .inr ⟨hplace, hloud⟩

end Parse

end Lox
