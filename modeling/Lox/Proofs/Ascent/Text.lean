import Lox.Proofs.Ascent.Pieces
import Lox.Proofs.Ascent.Steps

namespace Lox.Ascent

open Grammar Text

section

variable {c : Config} {t u : Token}

theorem stepOperand_congr {clause : Clause} {pending : List Pending} (hk : t.kind ∈ [.number, .string])
    (hkind : u.kind = t.kind) (hliteral : u.literal = t.literal) :
    c.stepOperand clause pending u = c.stepOperand clause pending t := by
  simp only [List.mem_cons, List.not_mem_nil, or_false] at hk
  rcases hk with hk | hk <;> simp only [Config.stepOperand, hkind, hk, hliteral]

theorem close_congr {clause : Clause} {p : Phrase} (hkind : u.kind = t.kind) : c.close clause p u = c.close clause p t := by
  unfold Config.close
  rw [hkind]

theorem step_congr (hk : t.kind ∈ [.number, .string]) (hkind : u.kind = t.kind) (hliteral : u.literal = t.literal) :
    c.step u = c.step t := by
  have hoperand : ∀ c clause pending, Config.stepOperand c clause pending u = c.stepOperand clause pending t :=
    fun c clause pending => stepOperand_congr hk hkind hliteral
  have hclose : ∀ c clause p, Config.close c clause p u = c.close clause p t := fun c clause p => close_congr hkind
  have hfind : Level.find? t.kind = none := by
    simp only [List.mem_cons, List.not_mem_nil, or_false] at hk
    rcases hk with hk | hk <;> rw [hk] <;> decide
  have hne : ∀ k ∉ [Kind.number, .string], t.kind ≠ k := fun k hk' he => hk' (he ▸ hk)
  have hstatement : ∀ c, Config.stepStatement c u = c.stepStatement t := by
    intro c
    unfold Config.stepStatement
    rw [hkind]
    simp only [hoperand]
  have hdeclaration : ∀ c, Config.stepDeclaration c u = c.stepDeclaration t := by
    intro c
    unfold Config.stepDeclaration
    rw [hkind, hstatement]
  unfold Config.step Config.stepParen Config.stepOperator
  simp only [hdeclaration, hstatement, hoperand, hclose, hkind, hfind, hne .identifier (by decide), hne .equal (by decide),
    if_false]

theorem stepOperand_eq_none {clause : Clause} {pending : List Pending} (h : t.kind ∉ opening) :
    c.stepOperand clause pending t = none := by
  unfold Config.stepOperand
  dsimp only
  split <;> first | rfl | simp_all [opening]

theorem step_eq_none (h : t.kind ∈ refused) : c.step t = none := by
  have hfind : ∀ k ∈ refused, Level.find? k = none := by decide
  have hopening : ∀ k ∈ refused, k ∉ opening := by decide
  have hne : ∀ k ∉ refused, t.kind ≠ k := fun k hk he => hk (he ▸ h)
  have hoperand : ∀ c clause pending, Config.stepOperand c clause pending t = none := fun c clause pending =>
    stepOperand_eq_none (hopening _ h)
  have hoperator : ∀ c clause pending p, Config.stepOperator c clause pending p t = none := fun c clause pending p =>
    stepOperator_eq_none (hfind _ h) (hne _ (by decide)) (hne _ (by decide)) (hne _ (by decide))
  have hclose : ∀ c clause p, Config.close c clause p t = none := fun c clause p =>
    close_eq_none (hne _ (by decide)) (hne _ (by decide))
  have hstatement : ∀ c, Config.stepStatement c t = none := by
    intro c
    unfold Config.stepStatement
    split <;> first | exact hoperand _ _ _ | exact absurd ‹_› (hne _ (by decide))
  have hdeclaration : ∀ c, Config.stepDeclaration c t = none := by
    intro c
    unfold Config.stepDeclaration
    split <;> first | exact hstatement _ | exact absurd ‹_› (hne _ (by decide))
  unfold Config.step Config.stepParen
  simp only [hdeclaration, hstatement, hoperand, hoperator, hclose, hne .identifier (by decide), hne .equal (by decide),
    hne .leftParen (by decide), hne .rightParen (by decide), hne .elseWord (by decide), if_false]
  split <;> first | rfl | (split <;> first | rfl | exact absurd ‹_› (hne _ (by decide)))

end

def tokensFrom (line : Nat) (cs : List Char) : List Token :=
  (Segment.numbered line (segments cs)).filterMap fun p => p.2.token? p.1

theorem scan_tokens (source : String) :
    (scan source).tokens = tokensFrom 1 source.toList ++ [endToken (1 + List.count '\n' source.toList : Nat)] := by
  rw [scan_eq]
  rfl

def result? (line : Nat) (c : Config) (cs : List Char) : Option (List Phrase) :=
  if (segments cs).all fun s => (s.diagnostic? 0).isNone then phrases? c (tokensFrom line cs) else none

section

variable {line fuel : Nat} {c : Config} {a : Char} {s : Segment} {as cs rest : List Char}

theorem segments_cons : segments (a :: as) = (Segment.first a as).1 :: segments (Segment.first a as).2 := by
  rw [segments]

theorem result?_cons : result? line c (a :: as) =
    if ((Segment.first a as).1.diagnostic? 0).isNone then
      match (Segment.first a as).1.token? (line + List.count '\n' (Segment.first a as).1.chars) with
      | none => result? (line + List.count '\n' (Segment.first a as).1.chars) c (Segment.first a as).2
      | some t => (c.step t).bind fun c =>
        result? (line + List.count '\n' (Segment.first a as).1.chars) c (Segment.first a as).2
    else none := by
  by_cases hs : ((Segment.first a as).1.diagnostic? 0).isNone = true
  · rw [if_pos hs]
    simp only [result?, tokensFrom, segments_cons, Segment.numbered, List.all_cons, hs, Bool.true_and, List.filterMap_cons]
    cases (Segment.first a as).1.token? (line + List.count '\n' (Segment.first a as).1.chars) with
    | none => rfl
    | some t =>
      dsimp only [phrases?]
      split
      · rfl
      · cases c.step t <;> rfl
  · rw [if_neg hs]
    simp [result?, segments_cons, hs]

theorem first_of_isSpace (h : isSpace a = true) : Segment.first a as = (.blank a, as) := by
  rcases isSpace_iff.mp h with rfl | rfl | rfl | rfl <;> simp [Segment.first, singleKind?, equalSuffixKinds?]

theorem count_newline_cons : List.count '\n' (a :: cs) = List.count '\n' [a] + List.count '\n' cs := by
  simp [List.count_cons, Nat.add_comm]

theorem segments_blanks : segments cs = (cs.takeWhile isSpace).map .blank ++ segments (cs.dropWhile isSpace) := by
  induction cs with
  | nil => rfl
  | cons a as ih =>
    by_cases h : isSpace a = true
    · rw [List.takeWhile_cons_of_pos h, List.dropWhile_cons_of_pos h, List.map_cons, List.cons_append, ← ih, segments_cons,
        first_of_isSpace h]
    · rw [List.takeWhile_cons_of_neg h, List.dropWhile_cons_of_neg h]
      rfl

theorem tokensFrom_blanks : tokensFrom line cs =
    tokensFrom (line + List.count '\n' (cs.takeWhile isSpace)) (cs.dropWhile isSpace) := by
  have hchars : (((cs.takeWhile isSpace).map Segment.blank).map Segment.chars).flatten = cs.takeWhile isSpace := by
    rw [List.map_map, ← List.flatMap_def]
    exact List.flatMap_singleton' _
  have hnone : (Segment.numbered line ((cs.takeWhile isSpace).map .blank)).filterMap (fun p => p.2.token? p.1) = [] := by
    refine List.filterMap_eq_nil_iff.mpr fun p hp => ?_
    obtain ⟨c, -, hc⟩ := List.mem_map.mp (Segment.mem_of_mem_numbered hp)
    rw [← hc]
    rfl
  rw [tokensFrom, segments_blanks, Segment.numbered_append, List.filterMap_append, hnone, hchars]
  rfl

theorem result?_blanks : result? line c cs =
    result? (line + List.count '\n' (cs.takeWhile isSpace)) c (cs.dropWhile isSpace) := by
  have hall : ((cs.takeWhile isSpace).map Segment.blank).all (fun s => (s.diagnostic? 0).isNone) = true := by
    simp [Segment.diagnostic?]
  rw [result?, segments_blanks, List.all_append, hall, Bool.true_and, tokensFrom_blanks]
  rfl

theorem literal_eq (k : Kind) (w : List Char) : literal k w = Segment.literal k w := by
  cases k <;> rfl

theorem step_lexeme {k : Kind} {w : List Char} (h : k = .string ∨ List.count '\n' w = 0) :
    c.step ⟨k, .text (String.ofList w), literal k w, line⟩ =
      c.step ⟨k, .text (String.ofList w), Segment.literal k w, (line + List.count '\n' w : Nat)⟩ := by
  rw [← literal_eq]
  by_cases hk : k = .string
  · exact step_congr (by simp [hk]) rfl rfl
  · rw [h.resolve_left hk]
    rfl

theorem toOption_unmatched (hm : match? cs = none) (hne : cs ≠ []) :
    (phrasesFrom fuel line position c cs).toOption = none := by
  obtain ⟨a, as, rfl⟩ := List.exists_cons_of_ne_nil hne
  cases fuel with
  | zero => rfl
  | succ fuel =>
    rw [phrasesFrom_unmatched hm]
    rfl

theorem phrasesFrom_nil : (phrasesFrom fuel line position c []).toOption = result? line c [] := by
  have hnil : segments [] = [] := by rw [segments]
  have hresult : result? line c [] = c.finish? := by simp [result?, tokensFrom, hnil, Segment.numbered, phrases?]
  rw [phrasesFrom, hresult]
  cases c.finish? <;> rfl

theorem phrasesFrom_toOption : ∀ fuel line position c cs, cs.length ≤ fuel →
    (phrasesFrom fuel line position c cs).toOption = result? line c cs := by
  intro fuel
  induction fuel with
  | zero =>
    intro line position c cs hlen
    obtain rfl := List.length_eq_zero_iff.mp (Nat.le_zero.mp hlen)
    exact phrasesFrom_nil
  | succ fuel ih =>
    intro line position c cs hlen
    cases cs with
    | nil => exact phrasesFrom_nil
    | cons a as =>
      have ht := takes_first a as
      have hlt := Segment.length_first_lt a as
      rw [result?_cons]
      generalize Segment.first a as = p at ht hlt
      obtain ⟨s, rest⟩ := p
      dsimp only at ht hlt ⊢
      simp only [List.length_cons] at hlen hlt
      cases ht with
      -- patterns take a whole run of blanks, segments one blank at a time
      | blank h =>
        have hdrop : (as.dropWhile isSpace).length ≤ fuel := by
          have := (List.dropWhile_suffix (p := isSpace) (l := as)).length_le
          omega
        rw [phrasesFrom_ignored (match?_of_space h), ih _ _ _ _ hdrop, count_newline_cons, ← Nat.add_assoc,
          ← result?_blanks]
        rfl
      | comment hm =>
        rw [phrasesFrom_ignored hm]
        exact ih _ _ _ _ (by omega)
      | lexeme hm hk =>
        rw [phrasesFrom_token hm, step_lexeme hk]
        simp only [Segment.diagnostic?, Segment.token?, Segment.chars, Option.isNone_none, if_true]
        split
        · rename_i hstep
          rw [hstep]
          rfl
        · rename_i c' hstep
          rw [hstep]
          exact ih _ _ _ _ (by omega)
      -- a lexeme of no use stops the segments at a step and the patterns where they no longer match
      | refused hk hm =>
        have hresult : ∀ (t : Token) (f : Config → Option (List Phrase)), t.kind ∈ refused →
            (c.step t).bind f = none := by
          intro t f ht
          rw [step_eq_none ht]
          rfl
        refine Eq.trans ?_ (hresult _ _ hk).symm
        rcases hm with hm | ⟨k', hm, hnext, hne⟩
        · exact toOption_unmatched hm (by simp)
        · rw [phrasesFrom_token hm]
          split
          · rfl
          · exact toOption_unmatched hnext hne
      | unexpected hm => exact toOption_unmatched hm (by simp)
      | unterminated hm => exact toOption_unmatched hm (by simp)

theorem all_isNone_iff {ss : List Segment} : (ss.all fun s => (s.diagnostic? 0).isNone) = true ↔
    (Segment.numbered line ss).filterMap (fun p => p.2.diagnostic? p.1) = [] := by
  induction ss generalizing line with
  | nil => simp [Segment.numbered]
  | cons s ss ih =>
    have hs : (s.diagnostic? 0).isNone = (s.diagnostic? (line + List.count '\n' s.chars)).isNone := by cases s <;> rfl
    have ih := @ih (line + List.count '\n' s.chars)
    rw [List.all_cons, Segment.numbered, Bool.and_eq_true, hs, Option.isNone_iff_eq_none, List.filterMap_cons, ih]
    cases s.diagnostic? (line + List.count '\n' s.chars) <;> simp

theorem faultless_iff {source : String} : ((segments source.toList).all fun s => (s.diagnostic? 0).isNone) = true ↔
    (scan source).diagnostics = [] := by
  rw [scan_eq]
  exact all_isNone_iff

theorem kind_ne_eof_of_mem_tokensFrom {t : Token} (h : t ∈ tokensFrom line cs) : t.kind ≠ .eof := by
  have hseg : Segmentation cs (segments cs) := segmentation_iff.mpr rfl
  obtain ⟨⟨n, s⟩, hp, ht⟩ := List.mem_filterMap.mp h
  cases s with
  | lexeme k w =>
    cases ht
    exact (isLexeme_of_segmentation hseg (Segment.mem_of_mem_numbered hp)).kind_ne_eof
  | blank | comment | unexpected | unterminated => cases ht

/-- A text without faulty segments that reads as phrases is a program of the lenient grammar. -/
theorem phrases_eq_ok_iff {source : String} {ps : List Phrase} :
    phrases source = .ok ps ↔ (scan source).diagnostics = [] ∧ Program true (scan source).tokens ps := by
  have hresult := phrasesFrom_toOption source.toList.length 1 0 .start source.toList (Nat.le_refl _)
  have hphrases : phrases source = .ok ps ↔ result? 1 .start source.toList = some ps := by
    rw [← hresult, phrases]
    cases phrasesFrom source.toList.length 1 0 .start source.toList <;> simp [Except.toOption]
  rw [hphrases, result?, scan_tokens]
  split
  · rename_i h
    have he : (endToken (1 + List.count '\n' source.toList : Nat)).kind = .eof := rfl
    rw [phrases?_eq_some_iff he fun t ht => kind_ne_eof_of_mem_tokensFrom ht]
    exact ⟨fun hp => ⟨faultless_iff.mp h, hp⟩, And.right⟩
  · rename_i h
    exact iff_of_false (by simp) fun hp => h (faultless_iff.mpr hp.1)

end

end Lox.Ascent
