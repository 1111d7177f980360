import Lox.Proofs.Ascent.Growth

namespace Lox.Ascent

open Grammar

def low : List Pending → Nat
  | .binary l _ _ :: _ => l.rank + 1
  | .unary _ :: _ => Ascent.levels.length
  | _ => 0

def Ordered : List Pending → Prop
  | [] => True
  | .binary l _ _ :: pending => l ∈ Ascent.levels ∧ low pending ≤ l.rank ∧ Ordered pending
  | .assign _ _ :: pending => low pending = 0 ∧ Ordered pending
  | .group :: pending | .unary _ :: pending => Ordered pending

def Grown (low : Nat) (fits : Phrase → List Token → Prop) (high : Nat) (q : Phrase) (ts : List Token) : Prop :=
  ∃ p rest, Grows (Ascent.levels.drop high) (Level.between low high) ts q rest p ∧
    (fits p rest ∨ low = 0 ∧ ∃ e us v vs, rest = e :: us ∧ e.kind = .equal ∧ Derives true .expression us vs v ∧
      fits (.assign p e v) vs)

def Filled (fits : Phrase → List Token → Prop) : List Pending → Phrase → List Token → Prop
  | [], p, ts => fits p ts
  | .group :: pending, p, ts => ∃ r us, ts = r :: us ∧ r.kind = .rightParen ∧
      Grown (low pending) (Filled fits pending) Ascent.levels.length (.grouping p) us
  | .unary o :: pending, p, ts => Grown (low pending) (Filled fits pending) Ascent.levels.length (.unary o p) ts
  | .binary l a o :: pending, p, ts => Grown (low pending) (Filled fits pending) (l.rank + 1) (.joined l a o p) ts
  | .assign t e :: pending, p, ts => Filled fits pending (.assign t e p) ts

def Demanded (low : Nat) (fits : Phrase → List Token → Prop) (ts : List Token) : Prop :=
  ∃ p rest, Derives true (if low = 0 then .expression else .operand (Ascent.levels.drop low)) ts rest p ∧ fits p rest

section

variable {fits : Phrase → List Token → Prop} {pending : List Pending} {ts : List Token} {t : Token} {p q : Phrase}
  {l : Level} {k high : Nat}

theorem low_le (h : Ordered pending) : low pending ≤ Ascent.levels.length := by
  cases pending with
  | nil => exact Nat.zero_le _
  | cons x pending =>
    cases x with
    | binary l a o => exact Level.rank_lt h.1
    | unary o => exact Nat.le_refl _
    | group | assign => exact Nat.zero_le _

theorem demanded_iff (h : k ≤ Ascent.levels.length) : Demanded k fits ts ↔
    ∃ us q, Derives true .unary ts us q ∧ Grown k fits Ascent.levels.length q us := by
  have hdrop : Ascent.levels.drop Ascent.levels.length = [] := List.drop_length
  have hunary : ∀ us q, Derives true (.operand []) ts us q ↔ Derives true .unary ts us q := by
    intro us q
    refine ⟨fun h => ?_, .tightest⟩
    cases h with
    | tightest h => exact h
  have hoperand : ∀ rest p, Derives true (.operand (Ascent.levels.drop k)) ts rest p ↔
      ∃ us q, Derives true .unary ts us q ∧ Grows [] (Level.between k Ascent.levels.length) us q rest p := by
    intro rest p
    rw [← Level.between_append_drop h, hdrop, operand_iff]
    simp only [hunary]
  simp only [Demanded, Grown, hdrop]
  by_cases hk : k = 0
  · subst hk
    rw [List.drop_zero] at hoperand
    simp only [if_true, true_and, @expression_iff ts, hoperand]
    constructor
    · rintro ⟨p, rest, ⟨mid, q, ⟨us, a, ha, hg⟩, ⟨rfl, rfl⟩ | ⟨e, vs, v, rfl, he, hv, rfl⟩⟩, hf⟩
      · exact ⟨us, a, ha, p, rest, hg, .inl hf⟩
      · exact ⟨us, a, ha, q, _, hg, .inr ⟨e, vs, v, rest, rfl, he, hv, hf⟩⟩
    · rintro ⟨us, a, ha, q, mid, hg, hf | ⟨e, vs, v, rest, rfl, he, hv, hf⟩⟩
      · exact ⟨q, mid, ⟨mid, q, ⟨us, a, ha, hg⟩, .inl ⟨rfl, rfl⟩⟩, hf⟩
      · exact ⟨_, rest, ⟨_, q, ⟨us, a, ha, hg⟩, .inr ⟨e, vs, v, rfl, he, hv, rfl⟩⟩, hf⟩
  · simp only [hk, if_false, false_and, or_false, hoperand]
    constructor
    · rintro ⟨p, rest, ⟨us, q, hq, hg⟩, hf⟩
      exact ⟨us, q, hq, p, rest, hg, hf⟩
    · rintro ⟨us, q, hq, p, rest, hg, hf⟩
      exact ⟨p, rest, ⟨us, q, hq, hg⟩, hf⟩

theorem grown_iff_of_not_mem (h : ∀ l ∈ Level.between k high, t.kind ∉ l.operators) (ht : t.kind = .equal → k ≠ 0) :
    Grown k fits high q (t :: ts) ↔ fits q (t :: ts) := by
  simp only [Grown, grows_iff_of_not_mem h]
  constructor
  · rintro ⟨p, rest, ⟨rfl, rfl⟩, hf | ⟨hk, e, us, v, vs, heq, he, -, -⟩⟩
    · exact hf
    · cases heq
      exact absurd hk (ht he)
  · exact fun hf => ⟨q, t :: ts, ⟨rfl, rfl⟩, .inl hf⟩

theorem grown_iff_of_equal (ht : t.kind = .equal) (hf : ∀ p, ¬ fits p (t :: ts)) :
    Grown 0 fits high q (t :: ts) ↔ Demanded 0 (fun v rest => fits (.assign q t v) rest) ts := by
  have hno : NoOperator Ascent.levels (t :: ts) := noOperator_of_equal ht
  have h : ∀ l ∈ Level.between 0 high, t.kind ∉ l.operators := fun l hl =>
    hno l (Level.mem_between hl).1 _ (by simp [next?])
  simp only [Grown, Demanded, grows_iff_of_not_mem h, if_true, true_and]
  constructor
  · rintro ⟨p, rest, ⟨rfl, rfl⟩, hp | ⟨e, us, v, vs, heq, -, hv, hp⟩⟩
    · exact absurd hp (hf p)
    · cases heq
      exact ⟨v, vs, hv, hp⟩
  · rintro ⟨v, vs, hv, hp⟩
    exact ⟨q, t :: ts, ⟨rfl, rfl⟩, .inr ⟨t, ts, v, vs, rfl, ht, hv, hp⟩⟩

theorem ne_equal_of_mem (hl : l ∈ Ascent.levels) (ht : t.kind ∈ l.operators) : t.kind ≠ .equal := by
  have hall : ∀ l ∈ Ascent.levels, .equal ∉ l.operators := by decide
  exact fun he => hall l hl (he ▸ ht)

theorem not_mem_between (hl : l ∈ Ascent.levels) (ht : t.kind ∈ l.operators) (hout : l.rank < k ∨ high ≤ l.rank) :
    ∀ l' ∈ Level.between k high, t.kind ∉ l'.operators := by
  intro l' hl' hk
  obtain ⟨hmem, hlow', hhigh'⟩ := Level.mem_between hl'
  rw [Level.eq_of_mem_operators hl hmem ht hk] at hout
  omega

theorem grown_iff_of_mem (hl : l ∈ Ascent.levels) (ht : t.kind ∈ l.operators) (hlow : k ≤ l.rank) (hhigh : l.rank < high)
    (hf : ∀ p, ¬ fits p (t :: ts)) :
    Grown k fits high q (t :: ts) ↔
      Demanded (l.rank + 1) (fun b rest => Grown k fits (l.rank + 1) (.joined l q t b) rest) ts := by
  have hbetween : Level.between k high = Level.between k l.rank ++ l :: Level.between (l.rank + 1) high := by
    rw [← Level.between_append hlow (Nat.le_of_lt hhigh), ← Level.between_append (Nat.le_succ l.rank) hhigh,
      Level.between_rank hl]
    rfl
  have hupto : Level.between k l.rank ++ [l] = Level.between k (l.rank + 1) := by
    rw [← Level.between_rank hl, Level.between_append hlow (Nat.le_succ l.rank)]
  have hdrop : Level.between (l.rank + 1) high ++ Ascent.levels.drop high = Ascent.levels.drop (l.rank + 1) :=
    Level.between_append_drop hhigh
  simp only [Grown, Demanded, hbetween, grows_iff_of_mem ht (not_mem_between hl ht (.inr (Nat.le_refl _)))
    (not_mem_between hl ht (.inl (Nat.lt_succ_self _))), hdrop, hupto, Nat.add_one_ne_zero, if_false]
  constructor
  · rintro ⟨p, rest, ⟨rfl, rfl⟩ | ⟨mid, b, hb, hg⟩, hp⟩
    · rcases hp with hp | ⟨-, e, us, v, vs, heq, he, -, -⟩
      · exact absurd hp (hf p)
      · cases heq
        exact absurd he (ne_equal_of_mem hl ht)
    · exact ⟨b, mid, hb, p, rest, hg, hp⟩
  · rintro ⟨b, mid, hb, p, rest, hg, hp⟩
    exact ⟨p, rest, .inr ⟨mid, b, hb, hg⟩, hp⟩

def Closing (fits : Phrase → List Token → Prop) : Prop :=
  ∀ p t ts, fits p (t :: ts) → t.kind = .semicolon ∨ t.kind = .rightParen

theorem Closing.ne_equal (h : Closing fits) (ht : t.kind = .equal) : ¬ fits p (t :: ts) := by
  intro hf
  rcases h p t ts hf with h | h <;> simp [ht] at h

theorem Closing.not_mem (h : Closing fits) (hl : l ∈ Ascent.levels) (ht : t.kind ∈ l.operators) : ¬ fits p (t :: ts) := by
  have hall : ∀ l ∈ Ascent.levels, .semicolon ∉ l.operators ∧ .rightParen ∉ l.operators := by decide
  intro hf
  rcases h p t ts hf with h | h
  · exact (hall l hl).1 (h ▸ ht)
  · exact (hall l hl).2 (h ▸ ht)

theorem not_filled_of_mem (hc : Closing fits) (hl : l ∈ Ascent.levels) (ht : t.kind ∈ l.operators) :
    ∀ pending, Ordered pending → low pending ≤ l.rank → ∀ p, ¬ Filled fits pending p (t :: ts) := by
  intro pending
  induction pending with
  | nil => exact fun _ _ p => hc.not_mem hl ht
  | cons x pending ih =>
    intro ho hlow p hf
    cases x with
    | group =>
      obtain ⟨r, us, heq, hr, -⟩ := hf
      cases heq
      have hall : ∀ l ∈ Ascent.levels, .rightParen ∉ l.operators := by decide
      exact hall l hl (hr ▸ ht)
    | unary o => exact absurd (Level.rank_lt hl) (Nat.not_lt.mpr hlow)
    | binary l' a o =>
      obtain ⟨-, hlow', ho⟩ := ho
      rw [low] at hlow
      rw [Filled, grown_iff_of_not_mem (not_mem_between hl ht (.inr hlow))
        fun he => absurd he (ne_equal_of_mem hl ht)] at hf
      exact ih ho (by omega) _ hf
    | assign target e =>
      obtain ⟨hlow', ho⟩ := ho
      exact ih ho (by omega) _ hf

theorem not_filled_of_equal (hc : Closing fits) (ht : t.kind = .equal) :
    ∀ pending, Ordered pending → low pending = 0 → ∀ p, ¬ Filled fits pending p (t :: ts) := by
  intro pending
  induction pending with
  | nil => exact fun _ _ p => hc.ne_equal ht
  | cons x pending ih =>
    intro ho hlow p hf
    cases x with
    | group =>
      obtain ⟨r, us, heq, hr, -⟩ := hf
      cases heq
      simp [ht] at hr
    | unary o => cases hlow
    | binary l a o => cases hlow
    | assign target e => exact ih ho.2 ho.1 _ hf

theorem ordered_reduce (k : Nat) (ho : Ordered pending) :
    Ordered (Config.reduce k q pending).2 ∧ low (Config.reduce k q pending).2 ≤ k := by
  induction pending generalizing q with
  | nil => exact ⟨ho, Nat.zero_le _⟩
  | cons x pending ih =>
    cases x with
    | group | assign => exact ⟨ho, Nat.zero_le _⟩
    | unary o => exact ih ho
    | binary l a o =>
      rw [Config.reduce]
      split
      · exact ih ho.2.2
      · exact ⟨ho, Nat.lt_of_not_le ‹_›⟩

theorem ordered_reduceAll (ho : Ordered pending) : Ordered (Config.reduceAll q pending).2 ∧
    ((Config.reduceAll q pending).2 = [] ∨ ∃ rest, (Config.reduceAll q pending).2 = .group :: rest) := by
  induction pending generalizing q with
  | nil => exact ⟨ho, .inl rfl⟩
  | cons x pending ih =>
    cases x with
    | group => exact ⟨ho, .inr ⟨pending, rfl⟩⟩
    | assign => exact ih ho.2
    | unary o => exact ih ho
    | binary l a o => exact ih ho.2.2

theorem grown_iff_reduce (hc : Closing fits) (hl : l ∈ Ascent.levels) (ht : t.kind ∈ l.operators) (hhigh : l.rank < high)
    (ho : Ordered pending) : Grown (low pending) (Filled fits pending) high q (t :: ts) ↔
      Demanded (l.rank + 1)
        (Filled fits (.binary l (Config.reduce l.rank q pending).1 t :: (Config.reduce l.rank q pending).2)) ts := by
  have hne := ne_equal_of_mem hl ht
  have hstop : ∀ {pending high q}, Ordered pending → low pending ≤ l.rank → l.rank < high →
      (Grown (low pending) (Filled fits pending) high q (t :: ts) ↔
        Demanded (l.rank + 1) (Filled fits (.binary l q t :: pending)) ts) := fun ho hlow hhigh =>
    grown_iff_of_mem hl ht hlow hhigh (not_filled_of_mem hc hl ht _ ho hlow)
  induction pending generalizing q high with
  | nil => exact hstop ho (Nat.zero_le _) hhigh
  | cons x pending ih =>
    cases x with
    | group | assign => exact hstop ho (Nat.zero_le _) hhigh
    | unary o =>
      refine Iff.trans (grown_iff_of_not_mem (not_mem_between hl ht (.inl ?_)) fun he => absurd he hne) (ih ?_ ho)
      · exact Level.rank_lt hl
      · exact Level.rank_lt hl
    | binary l' a o =>
      rw [Config.reduce]
      by_cases hle : l.rank ≤ l'.rank
      · rw [if_pos hle]
        have hlt : l.rank < l'.rank + 1 := Nat.lt_succ_of_le hle
        exact Iff.trans (grown_iff_of_not_mem (not_mem_between hl ht (.inl hlt)) fun he => absurd he hne) (ih hlt ho.2.2)
      · rw [if_neg hle]
        exact hstop ho (Nat.lt_of_not_le hle) hhigh

theorem grown_iff_reduce_equal (hc : Closing fits) (ht : t.kind = .equal) (ho : Ordered pending) :
    Grown (low pending) (Filled fits pending) high q (t :: ts) ↔
      Demanded 0 (Filled fits (.assign (Config.reduce 0 q pending).1 t :: (Config.reduce 0 q pending).2)) ts := by
  have hno : ∀ {k high}, ∀ l ∈ Level.between k high, t.kind ∉ l.operators := fun l hl =>
    (noOperator_of_equal ht : NoOperator Ascent.levels (t :: ts)) l (Level.mem_between hl).1 _ (by simp [next?])
  have hstop : ∀ {pending high q}, Ordered pending → low pending = 0 →
      (Grown (low pending) (Filled fits pending) high q (t :: ts) ↔
        Demanded 0 (Filled fits (.assign q t :: pending)) ts) := fun ho hlow =>
    hlow ▸ grown_iff_of_equal ht (not_filled_of_equal hc ht _ ho hlow)
  induction pending generalizing q high with
  | nil => exact hstop ho rfl
  | cons x pending ih =>
    cases x with
    | group | assign => exact hstop ho rfl
    | unary o =>
      exact Iff.trans (grown_iff_of_not_mem hno fun _ => by simp [low, Ascent.levels]) (ih ho)
    | binary l a o =>
      rw [Config.reduce, if_pos (Nat.zero_le _)]
      exact Iff.trans (grown_iff_of_not_mem hno fun _ => by simp [low]) (ih ho.2.2)

theorem filled_iff_reduceAll (hne : t.kind ≠ .equal) (hno : ∀ l ∈ Ascent.levels, t.kind ∉ l.operators) :
    Filled fits pending q (t :: ts) ↔
      Filled fits (Config.reduceAll q pending).2 (Config.reduceAll q pending).1 (t :: ts) := by
  have hgrown : ∀ {k high q} {fits : Phrase → List Token → Prop}, Grown k fits high q (t :: ts) ↔ fits q (t :: ts) :=
    grown_iff_of_not_mem (fun l hl => hno l (Level.mem_between hl).1) fun he => absurd he hne
  induction pending generalizing q with
  | nil => exact .rfl
  | cons x pending ih =>
    cases x with
    | group => exact .rfl
    | assign target e => exact ih
    | unary o =>
      rw [Filled, hgrown]
      exact ih
    | binary l a o =>
      rw [Filled, hgrown]
      exact ih

end

end Lox.Ascent
