import Lox.Ascent
import Lox.Proofs.Unambiguous

namespace Lox

namespace Level

theorem rank_lt {l : Level} (h : l ∈ Ascent.levels) : l.rank < Ascent.levels.length :=
  List.idxOf_lt_length_of_mem h

theorem rank_getElem {i : Nat} (h : i < Ascent.levels.length) : Ascent.levels[i].rank = i := by
  have hall : ∀ j : Fin Ascent.levels.length, (Ascent.levels.get j).rank = j := by decide
  exact hall ⟨i, h⟩

theorem eq_of_mem_operators {l l' : Level} {k : Kind} (hl : l ∈ Ascent.levels) (hl' : l' ∈ Ascent.levels) (hk : k ∈ l.operators)
    (hk' : k ∈ l'.operators) : l = l' := by
  have hall : ∀ l ∈ Ascent.levels, ∀ l' ∈ Ascent.levels, ∀ k ∈ l.operators, k ∈ l'.operators → l = l' := by decide
  exact hall l hl l' hl' k hk hk'

theorem find?_eq_some {k : Kind} {l : Level} (h : find? k = some l) : l ∈ Ascent.levels ∧ k ∈ l.operators := by
  refine ⟨List.mem_of_find?_eq_some h, ?_⟩
  simpa using List.find?_some h

theorem find?_eq_none {k : Kind} (h : find? k = none) : ∀ l ∈ Ascent.levels, k ∉ l.operators := by
  intro l hl
  simpa using List.find?_eq_none.mp h l hl

def between (low high : Nat) : List Level :=
  (Ascent.levels.drop low).take (high - low)

section

variable {low high k : Nat} {l : Level}

theorem mem_between (h : l ∈ between low high) : l ∈ Ascent.levels ∧ low ≤ l.rank ∧ l.rank < high := by
  obtain ⟨i, hi, rfl⟩ := List.getElem_of_mem h
  simp only [between, List.length_take, List.length_drop] at hi
  have hlt : low + i < Ascent.levels.length := by omega
  simp only [between, List.getElem_take, List.getElem_drop]
  rw [rank_getElem hlt]
  exact ⟨List.getElem_mem hlt, by omega, by omega⟩

theorem between_append_drop (h : low ≤ high) : between low high ++ Ascent.levels.drop high = Ascent.levels.drop low := by
  have hdrop : Ascent.levels.drop high = (Ascent.levels.drop low).drop (high - low) := by
    rw [List.drop_drop]
    congr 1
    omega
  rw [between, hdrop, List.take_append_drop]

theorem drop_rank (h : l ∈ Ascent.levels) : Ascent.levels.drop l.rank = l :: Ascent.levels.drop (l.rank + 1) := by
  rw [List.drop_eq_getElem_cons (rank_lt h)]
  congr 1
  exact List.getElem_idxOf (rank_lt h)

theorem between_append (h : low ≤ k) (h' : k ≤ high) : between low k ++ between k high = between low high := by
  have hlen : high - low = (k - low) + (high - k) := by omega
  rw [between, between, between, hlen, List.take_add, List.drop_drop]
  congr 4
  omega

theorem between_rank (h : l ∈ Ascent.levels) : between l.rank (l.rank + 1) = [l] := by
  rw [between, drop_rank h]
  simp

end

end Level

namespace Grammar

open Ascent

def Grows (hs : List Level) : List Level → List Token → Phrase → List Token → Phrase → Prop
  | [], ts, q, rest, p => rest = ts ∧ p = q
  | l :: ls, ts, q, rest, p => ∃ mid a, Grows hs ls ts q mid a ∧ Chain true l (ls ++ hs) mid a rest p

section

variable {hs ls ls' : List Level} {ts rest mid : List Token} {p q a : Phrase} {t : Token} {l : Level}

theorem Chain.operand (ha : Derives true (.operand (l :: ls)) ts mid a) (h : Chain true l ls mid a rest p) :
    Derives true (.operand (l :: ls)) ts rest p := by
  induction h with
  | done => exact ha
  | more ho hb _ ih => exact ih (.joined ha ho hb)

theorem operand_iff : Derives true (.operand (ls ++ hs)) ts rest p ↔
    ∃ mid q, Derives true (.operand hs) ts mid q ∧ Grows hs ls mid q rest p := by
  induction ls generalizing rest p with
  | nil =>
    constructor
    · exact fun h => ⟨rest, p, h, rfl, rfl⟩
    · rintro ⟨mid, q, h, rfl, rfl⟩
      exact h
  | cons l ls ih =>
    constructor
    · intro h
      obtain ⟨mid, a, ha, hc⟩ := Chain.of_operand h
      obtain ⟨us, q, hq, hg⟩ := ih.mp ha
      exact ⟨us, q, hq, mid, a, hg, hc⟩
    · rintro ⟨us, q, hq, mid, a, hg, hc⟩
      exact hc.operand (.single (ih.mpr ⟨us, q, hq, hg⟩))

theorem grows_append : Grows hs (ls ++ ls') ts q rest p ↔
    ∃ mid a, Grows hs ls' ts q mid a ∧ Grows (ls' ++ hs) ls mid a rest p := by
  induction ls generalizing rest p with
  | nil =>
    constructor
    · exact fun h => ⟨rest, p, h, rfl, rfl⟩
    · rintro ⟨mid, a, h, rfl, rfl⟩
      exact h
  | cons l ls ih =>
    simp only [List.cons_append, Grows, ih, List.append_assoc]
    constructor
    · rintro ⟨us, b, ⟨mid, a, h, hg⟩, hc⟩
      exact ⟨mid, a, h, us, b, hg, hc⟩
    · rintro ⟨mid, a, h, us, b, hg, hc⟩
      exact ⟨us, b, ⟨mid, a, h, hg⟩, hc⟩

theorem grows_iff_of_not_mem (h : ∀ l ∈ ls, t.kind ∉ l.operators) :
    Grows hs ls (t :: ts) q rest p ↔ rest = t :: ts ∧ p = q := by
  induction ls generalizing rest p with
  | nil => rfl
  | cons l ls ih =>
    have hls : ∀ l ∈ ls, t.kind ∉ l.operators := fun l' hl => h l' (by simp [hl])
    simp only [Grows, ih hls]
    constructor
    · rintro ⟨mid, a, ⟨rfl, rfl⟩, hc⟩
      cases hc with
      | done => exact ⟨rfl, rfl⟩
      | more ho => exact absurd ho (h l (by simp))
    · rintro ⟨rfl, rfl⟩
      exact ⟨t :: ts, p, ⟨rfl, rfl⟩, .done⟩

theorem grows_iff_of_mem (hl : t.kind ∈ l.operators) (h : ∀ l' ∈ ls, t.kind ∉ l'.operators)
    (h' : ∀ l ∈ ls', t.kind ∉ l.operators) :
    Grows hs (ls ++ l :: ls') (t :: ts) q rest p ↔
      (rest = t :: ts ∧ p = q) ∨ ∃ mid b, Derives true (.operand (ls' ++ hs)) ts mid b ∧
        Grows (ls' ++ hs) (ls ++ [l]) mid (.joined l q t b) rest p := by
  have hsplit : ls ++ l :: ls' = (ls ++ [l]) ++ ls' := by simp
  rw [hsplit, grows_append]
  simp only [grows_iff_of_not_mem h', grows_append]
  constructor
  · rintro ⟨mid, a, ⟨rfl, rfl⟩, us, c, ⟨vs, d, ⟨rfl, rfl⟩, hc⟩, hg⟩
    cases hc with
    | done => exact .inl ((grows_iff_of_not_mem h).mp hg)
    | more ho hb hc => exact .inr ⟨_, _, hb, us, c, ⟨_, _, ⟨rfl, rfl⟩, hc⟩, hg⟩
  · rintro (⟨rfl, rfl⟩ | ⟨mid, b, hb, us, c, ⟨_, _, ⟨rfl, rfl⟩, hc⟩, hg⟩)
    · exact ⟨t :: ts, p, ⟨rfl, rfl⟩, t :: ts, p, ⟨_, _, ⟨rfl, rfl⟩, .done⟩, (grows_iff_of_not_mem h).mpr ⟨rfl, rfl⟩⟩
    · exact ⟨t :: ts, q, ⟨rfl, rfl⟩, us, c, ⟨_, _, ⟨rfl, rfl⟩, .more hl hb hc⟩, hg⟩

theorem expression_iff : Derives true .expression ts rest p ↔
    ∃ mid q, Derives true (.operand Ascent.levels) ts mid q ∧
      ((rest = mid ∧ p = q) ∨ ∃ e us v, mid = e :: us ∧ e.kind = .equal ∧ Derives true .expression us rest v ∧
        p = .assign q e v) := by
  constructor
  · intro h
    cases h with
    | assign hn he hv => exact ⟨_, _, .operand_name hn, .inr ⟨_, _, _, rfl, he, hv, rfl⟩⟩
    | misassign _ ht _ he hv => exact ⟨_, _, ht, .inr ⟨_, _, _, rfl, he, hv, rfl⟩⟩
    | joinedAll h => exact ⟨_, _, h, .inl ⟨rfl, rfl⟩⟩
  · rintro ⟨mid, q, hq, ⟨rfl, rfl⟩ | ⟨e, us, v, rfl, he, hv, rfl⟩⟩
    · exact .joinedAll hq
    · by_cases hn : ∃ n, q = .variable n
      · obtain ⟨n, rfl⟩ := hn
        obtain ⟨rfl, hn⟩ := hq.eq_cons_of_variable
        exact .assign hn he hv
      · exact .misassign rfl hq (fun n hn' => hn ⟨n, hn'⟩) he hv

end

end Grammar

end Lox
