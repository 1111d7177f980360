import Lox.Proofs.Blame.Refusals

namespace Lox.Ascent

open Text

structure Located (d : Diagnostic) (t : Token) : Prop where
  place : d.place = if t.kind ∈ [.comma, .dot] then .unnamed else t.place
  line : d.line = t.line ∨ t.kind = .string ∧ ∃ s, t.lexeme = .text s ∧ '\n' ∈ s.toList

def Clean (cs : List Char) : Prop :=
  ∀ s ∈ segments cs, s.diagnostic? 0 = none

def allTokens (line : Nat) (cs : List Char) : List Token :=
  tokensFrom line cs ++ [endToken (line + List.count '\n' cs : Nat)]

section

variable {line position : Nat} {source : String} {c : Char} {cs w rest : List Char} {k : Kind}

theorem clean_cons : Clean (c :: cs) ↔ (Segment.first c cs).1.diagnostic? 0 = none ∧ Clean (Segment.first c cs).2 := by
  rw [Clean, segments_cons, List.forall_mem_cons]
  rfl

theorem allTokens_cons : allTokens line (c :: cs) =
    ((Segment.first c cs).1.token? (line + List.count '\n' (Segment.first c cs).1.chars)).toList ++
      allTokens (line + List.count '\n' (Segment.first c cs).1.chars) (Segment.first c cs).2 := by
  have hlines : List.count '\n' (c :: cs) = List.count '\n' (Segment.first c cs).1.chars + List.count '\n' (Segment.first c cs).2 := by
    rw [← Segment.chars_first_append c cs]
    simp
  rw [allTokens, allTokens, tokensFrom, tokensFrom, segments_cons, Segment.numbered, List.filterMap_cons, hlines,
    ← Nat.add_assoc]
  dsimp only
  cases (Segment.first c cs).1.token? (line + List.count '\n' (Segment.first c cs).1.chars) <;> rfl

theorem clean_blanks (h : Clean cs) : Clean (cs.dropWhile isSpace) := by
  rw [Clean, segments_blanks] at h
  exact fun s hs => h s (List.mem_append_right _ hs)

theorem allTokens_blanks : allTokens line cs =
    allTokens (line + List.count '\n' (cs.takeWhile isSpace)) (cs.dropWhile isSpace) := by
  have hlines : List.count '\n' cs =
      List.count '\n' (cs.takeWhile isSpace) + List.count '\n' (cs.dropWhile isSpace) := by
    rw [← List.count_append, List.takeWhile_append_dropWhile]
  rw [allTokens, allTokens, tokensFrom_blanks, hlines, Nat.add_assoc]

theorem first_of_isWord (h : isWord c = true) (h' : isAlphanumeric c = false) :
    (Segment.first c cs).1 = .unexpected c := by
  have hspecial : ∀ d ∈ special, isWord d = false := eq_false_of_all (by decide +kernel)
  have hc : c ∉ special := by
    intro hm
    rw [hspecial c hm] at h
    cases h
  simp only [isAlphanumeric, Bool.or_eq_false_iff] at h'
  rw [first_of_not_special hc]
  simp [h']

theorem match?_of_reserved (h : isAlpha c = true) (hw : String.ofList (c :: cs.takeWhile isAlphanumeric) ∈ reserved)
    (hclean : Clean (cs.dropWhile isAlphanumeric)) : match? (c :: cs) = none := by
  have hc : isAlphanumeric c = true := by simp [isAlphanumeric, h]
  rw [match?_of_isAlpha h]
  refine if_pos (eq_true_of_ne_false fun hb => ?_)
  rw [← List.takeWhile_cons_of_pos hc] at hw
  obtain ⟨d, ds, hrest, hword, halnum⟩ := beginsReserved_eq_false hb hw
  rw [List.dropWhile_cons_of_pos hc] at hrest
  rw [hrest, clean_cons, first_of_isWord hword halnum] at hclean
  cases hclean.1

theorem kind_ne_eof_of_first (h : Segment.first c cs = (.lexeme k w, rest)) : k ≠ .eof := by
  have hshaped := first_shaped c cs
  rw [h] at hshaped
  cases hshaped with
  | lexeme hw _ => exact hw.kind_ne_eof

theorem first_of_refused (h : Segment.first c cs = (.lexeme k w, rest)) (hk : k ∈ refused) :
    (k ∈ [.comma, .dot] ∧ singleKind? c = some k ∧ w = [c]) ∨
      (k ∉ [.comma, .dot] ∧ isAlpha c = true ∧ String.ofList w ∈ reserved ∧ w = c :: cs.takeWhile isAlphanumeric ∧
        rest = cs.dropWhile isAlphanumeric) := by
  have hsigns : ∀ p ∈ signs, p.2 ∈ refused → p = ([','], .comma) ∨ p = (['.'], .dot) := by decide
  have hkeywords : ∀ p ∈ Kind.keywords, p.2 ∈ refused → p.1 ∈ reserved ∧ p.2 ∉ [Kind.comma, .dot] := by decide
  have happend := Segment.chars_first_append c cs
  have hshaped := first_shaped c cs
  rw [h] at hshaped happend
  cases hshaped with
  | lexeme hw _ =>
    cases hw with
    | sign hm =>
      refine .inl ?_
      rcases hsigns _ hm hk with heq | heq <;> cases heq <;> cases happend <;> exact ⟨by decide, rfl, rfl⟩
    | @keyword s _ hm =>
      obtain ⟨hreserved, hne⟩ := hkeywords _ hm hk
      obtain ⟨-, a, as, heq, ha, -⟩ := word_of_keyword hm
      dsimp only [Segment.chars] at happend
      obtain rfl : a = c := by
        rw [heq] at happend
        cases happend
        rfl
      rw [first_of_isAlpha ha] at h
      obtain ⟨hsegment, hrest⟩ := Prod.mk.inj h
      obtain ⟨-, hw⟩ := Segment.lexeme.inj hsegment
      exact .inr ⟨hne, ha, by rwa [String.ofList_toList], hw.symm, hrest.symm⟩
    | whole | decimal | identifier | string => exact absurd hk (by decide)

theorem located_characters (hcs : source.toList.drop position = c :: cs) (h : Segment.first c cs = (.lexeme k w, rest))
    (hk : k ∈ refused) (hclean : Clean rest) :
    match? (c :: cs) = none ∧ Located ((Failure.characters line position).diagnostic source)
      ⟨k, .text (String.ofList w), Segment.literal k w, (line + List.count '\n' w : Nat)⟩ := by
  have hne := kind_ne_eof_of_first h
  rcases first_of_refused h hk with ⟨hmark, hc, rfl⟩ | ⟨hnot, ha, hreserved, rfl, rfl⟩
  · have hword : word (c :: cs) = none ∧ List.count '\n' [c] = 0 := by
      unfold singleKind? at hc
      split at hc <;> first | (cases hc; done) | exact ⟨by simp [word, isAlpha], by decide⟩
    have hd : (Failure.characters line position).diagnostic source = ⟨line, .unnamed, .unexpectedCharacter c⟩ := by
      simp only [Failure.diagnostic, hcs, hword.1, List.headD_cons]
    refine ⟨by rw [match?_of_singleKind? hc, if_pos hmark], ?_, ?_⟩
    · rw [hd, if_pos hmark]
    · rw [hd, hword.2]
      exact .inl rfl
  · have hword : word (c :: cs) = some (c :: cs.takeWhile isAlphanumeric, cs.dropWhile isAlphanumeric) := if_pos ha
    have hc : '\n' ≠ c := by
      rintro rfl
      cases ha
    have hlines : List.count '\n' (c :: cs.takeWhile isAlphanumeric) = 0 := by
      refine List.count_eq_zero.mpr ?_
      rw [List.mem_cons, not_or]
      exact ⟨hc, not_mem_takeWhile (by decide)⟩
    have hd : (Failure.characters line position).diagnostic source =
        ⟨line, .atLexeme (String.ofList (c :: cs.takeWhile isAlphanumeric)), .unexpectedToken⟩ := by
      simp only [Failure.diagnostic, hcs, hword, if_pos hreserved]
    refine ⟨match?_of_reserved ha hreserved hclean, ?_, ?_⟩
    · rw [hd, if_neg hnot, Token.place, if_neg hne]
      rfl
    · rw [hd, hlines]
      exact .inl rfl

theorem located_token (hne : k ≠ .eof) (hk : k ∉ [.comma, .dot]) (hw : k = .string ∨ List.count '\n' w = 0) :
    Located ((Failure.token ⟨k, .text (String.ofList w), literal k w, line⟩).diagnostic source)
      ⟨k, .text (String.ofList w), Segment.literal k w, (line + List.count '\n' w : Nat)⟩ := by
  refine ⟨by rw [if_neg hk, Token.place, if_neg hne]; rfl, ?_⟩
  by_cases hzero : List.count '\n' w = 0
  · rw [hzero]
    exact .inl rfl
  · refine .inr ⟨hw.resolve_right hzero, String.ofList w, rfl, ?_⟩
    rw [String.toList_ofList]
    exact List.count_pos_iff.mp (Nat.pos_of_ne_zero hzero)

end

theorem phrasesFrom_refusal {source : String} {j : Nat} {t : Token} : ∀ fuel line position i C cs, cs.length ≤ fuel →
    source.toList.drop position = cs → source.toList.count '\n' + 1 = line + cs.count '\n' → Clean cs →
    Config.refusal? i C (allTokens line cs) = some (j, t) →
    ∃ f, phrasesFrom fuel line position C cs = .error f ∧ Located (f.diagnostic source) t := by
  have hnil (fuel line position i : Nat) (C : Config) (hlines : source.toList.count '\n' + 1 = line)
      (h : C.refusal? i (allTokens line []) = some (j, t)) :
      ∃ f, phrasesFrom fuel line position C [] = .error f ∧ Located (f.diagnostic source) t := by
    have htokens : allTokens line [] = [endToken line] := by
      simp [allTokens, tokensFrom, segments, Segment.numbered]
    have hend : (endToken line).kind = .eof := rfl
    rw [htokens, Config.refusal?, if_pos hend] at h
    split at h
    · rename_i hfinish
      cases h
      refine ⟨.atEnd, ?_, rfl, .inl ?_⟩
      · rw [phrasesFrom, Option.isNone_iff_eq_none.mp hfinish]
        rfl
      · exact congrArg Nat.cast hlines
    · cases h
  intro fuel
  induction fuel with
  | zero =>
    intro line position i C cs hlen hcs hlines hclean h
    obtain rfl := List.length_eq_zero_iff.mp (Nat.le_zero.mp hlen)
    exact hnil 0 line position i C hlines h
  | succ fuel ih =>
    intro line position i C cs hlen hcs hlines hclean h
    cases cs with
    | nil => exact hnil (fuel + 1) line position i C hlines h
    | cons a as =>
      have ht := takes_first a as
      have hlt := Segment.length_first_lt a as
      have happend := Segment.chars_first_append a as
      have hbehind (piece rest : List Char) (happend : piece ++ rest = a :: as) :
          source.toList.drop (position + piece.length) = rest ∧
            source.toList.count '\n' + 1 = line + piece.count '\n' + rest.count '\n' := by
        rw [← List.drop_drop, hcs, hlines, ← happend, List.drop_left, List.count_append, Nat.add_assoc]
        exact ⟨rfl, rfl⟩
      rw [clean_cons] at hclean
      rw [allTokens_cons] at h
      generalize hp : Segment.first a as = p at ht hlt hclean h happend
      obtain ⟨s, rest⟩ := p
      dsimp only at ht hlt hclean h happend
      simp only [List.length_cons] at hlen hlt
      cases ht with
      -- a run of blanks is one piece but many segments
      | blank ha =>
        have hdrop : (as.dropWhile isSpace).length ≤ fuel := by
          have := (List.dropWhile_suffix (p := isSpace) (l := as)).length_le
          omega
        obtain ⟨hcs, hlines⟩ := hbehind (a :: as.takeWhile isSpace) (as.dropWhile isSpace) (by simp)
        rw [phrasesFrom_ignored (match?_of_space ha)]
        refine ih _ _ i C _ hdrop hcs hlines (clean_blanks hclean.2) ?_
        rw [count_newline_cons, ← Nat.add_assoc, ← allTokens_blanks]
        exact h
      | comment hm =>
        obtain ⟨hcs, hlines⟩ := hbehind _ _ happend
        rw [phrasesFrom_ignored hm]
        exact ih _ _ i C _ (by omega) hcs hlines hclean.2 h
      -- the line of the token is all that differs, and no step depends on it
      | @lexeme k w _ hm hw =>
        have hne := kind_ne_eof_of_first hp
        have hk : k ∉ refused := by
          intro hk
          rw [(@located_characters line position source a as w rest k hcs hp hk hclean.2).1] at hm
          cases hm
        have hmarks : k ∉ [.comma, .dot] := fun hmem => hk (List.mem_append_left _ hmem)
        obtain ⟨hcs, hlines⟩ := hbehind _ _ happend
        rw [phrasesFrom_token hm, step_lexeme hw]
        cases hstep : C.step ⟨k, .text (String.ofList w), Segment.literal k w, (line + w.count '\n' : Nat)⟩ with
        | none =>
          have hunfit := h.symm.trans (Config.refusal?_unfit hne hstep)
          cases hunfit
          exact ⟨_, rfl, located_token hne hmarks hw⟩
        | some C' =>
          refine ih _ _ (i + 1) C' rest (by omega) hcs hlines hclean.2 ?_
          rw [← h]
          exact (Config.refusal?_step hne hstep).symm
      | @refused k w _ hk =>
        obtain ⟨hm, hlocated⟩ := located_characters hcs hp hk hclean.2
        have hunfit := h.symm.trans (Config.refusal?_unfit (kind_ne_eof_of_first hp) (step_eq_none hk))
        cases hunfit
        exact ⟨_, phrasesFrom_unmatched hm, hlocated⟩
      | unexpected => cases hclean.1
      | unterminated => cases hclean.1

end Lox.Ascent
