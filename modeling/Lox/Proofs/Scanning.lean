import Lox.Proofs.Lexemes

/-!
The cursor reads nothing outside the source, and each turn of the main loop takes it past one segment. Main statement:
`scan_segments`.
-/
namespace Lox

open Text

namespace Scanner

section

variable {cs rest w after : List Char} {i n : Nat} {c : Char} {s : Scanner} {k : Kind} {v : Value}

theorem drop_succ_of_cons (h : cs.drop i = c :: rest) : cs.drop (i + 1) = rest := by
  rw [← List.tail_drop, h, List.tail_cons]

theorem drop_add (h : cs.drop i = w ++ after) : cs.drop (i + w.length) = after := by
  rw [← List.drop_drop, h, List.drop_left]

theorem read_eq (h : cs.drop i = c :: rest) : read cs.toArray i = .ok c := by
  have hc : cs.toArray[i]? = some c := by
    rw [List.getElem?_toArray, ← List.head?_drop, h, List.head?_cons]
  rw [read, hc]

theorem atEnd_iff : s.atEnd cs.toArray = true ↔ cs.drop s.current = [] := by
  simp [atEnd, List.drop_eq_nil_iff]

theorem atEnd_eq_false (h : cs.drop s.current = c :: rest) : s.atEnd cs.toArray = false := by
  apply Bool.eq_false_iff.mpr
  intro hend
  rw [atEnd_iff.mp hend] at h
  cases h

theorem slice_eq : slice cs.toArray i n = (cs.drop i).take (n - i) := by
  simp [slice, List.extract_eq_take_drop]

theorem slice_prefix (h : cs.drop i = w ++ after) : slice cs.toArray i (i + w.length) = w := by
  rw [slice_eq, h, Nat.add_sub_cancel_left, List.take_left]

theorem advance_eq (h : cs.drop s.current = c :: rest) :
    s.advance cs.toArray = .ok (c, { s with current := s.current + 1 }) := by
  rw [advance, read_eq h]
  rfl

theorem accept_cases (s : Scanner) (e : Char) (h : cs.drop s.current = rest) :
    (∃ after, rest = e :: after ∧ s.accept cs.toArray e = .ok (true, { s with current := s.current + 1 })) ∨
    (∀ after, rest ≠ e :: after) ∧ s.accept cs.toArray e = .ok (false, s) := by
  rw [accept]
  cases rest with
  | nil =>
    rw [atEnd_iff.mpr h]
    exact .inr ⟨by simp, rfl⟩
  | cons d ds =>
    rw [atEnd_eq_false h, read_eq h]
    by_cases hd : d = e
    · subst hd
      exact .inl ⟨ds, rfl, by simp [bind, Except.bind, pure, Except.pure]⟩
    · exact .inr ⟨by simp [hd], by simp [bind, Except.bind, pure, Except.pure, hd]⟩

theorem peek_eq : s.peek cs.toArray = .ok ((cs.drop s.current).headD '\x00') := by
  rw [peek]
  cases hleft : cs.drop s.current with
  | nil => rw [if_pos (atEnd_iff.mpr hleft), List.headD_nil]
  | cons d ds => rw [if_neg (by simp [atEnd_eq_false hleft]), read_eq hleft, List.headD_cons]

theorem peekNext_eq : s.peekNext cs.toArray = .ok ((cs.drop (s.current + 1)).headD '\x00') := by
  rw [peekNext]
  cases hleft : cs.drop (s.current + 1) with
  | nil => rw [if_pos (by simpa using hleft), List.headD_nil]
  | cons d ds =>
    have hlt : s.current + 1 < cs.length := by
      have hlen := congrArg List.length hleft
      simp only [List.length_drop, List.length_cons] at hlen
      omega
    rw [if_neg (by simpa using hlt), read_eq hleft, List.headD_cons]

theorem advanceWhile_eq {test : Scanner → Char → Bool} {p : Char → Bool}
    (hend : ∀ s : Scanner, cs.drop s.current = [] → test s '\x00' = false)
    (htest : ∀ (s : Scanner) c rest, cs.drop s.current = c :: rest → test s c = p c) :
    s.advanceWhile cs.toArray test = .ok { s with current := s.current + ((cs.drop s.current).takeWhile p).length } := by
  generalize hleft : cs.drop s.current = left
  induction left generalizing s with
  | nil =>
    rw [advanceWhile, peek_eq, hleft]
    simp [hend s hleft]
  | cons c rest ih =>
    rw [advanceWhile, peek_eq, hleft]
    simp only [List.headD_cons, htest s c rest hleft]
    by_cases hp : p c = true
    · rw [if_pos hp]
      split
      · rename_i e herror
        rw [advance_eq hleft] at herror
        cases herror
      · rename_i d t hadvance
        rw [advance_eq hleft] at hadvance
        cases hadvance
        rw [ih (drop_succ_of_cons hleft), List.takeWhile_cons_of_pos hp, List.length_cons]
        simp [Nat.add_assoc, Nat.add_comm 1]
    · rw [if_neg hp, List.takeWhile_cons_of_neg hp]
      simp

theorem advanceWhile_class {p : Char → Bool} (hp : p '\x00' = false) : s.advanceWhile cs.toArray (fun _ c => p c) =
    .ok { s with current := s.current + ((cs.drop s.current).takeWhile p).length } :=
  advanceWhile_eq (fun _ _ => hp) fun _ _ _ _ => rfl

theorem advanceWhile_comment : s.advanceWhile cs.toArray (fun s c => c ≠ '\n' && !s.atEnd cs.toArray) =
    .ok { s with current := s.current + ((cs.drop s.current).takeWhile (· != '\n')).length } := by
  refine advanceWhile_eq (fun s h => ?_) fun s c rest h => ?_
  · simp [atEnd_iff.mpr h]
  · rw [atEnd_eq_false h]
    simp [bne, BEq.beq]

theorem stringBody_eq : s.stringBody cs.toArray = .ok { s with
    current := s.current + ((cs.drop s.current).takeWhile (· != '"')).length
    line := s.line + ((cs.drop s.current).takeWhile (· != '"')).count '\n' } := by
  generalize hleft : cs.drop s.current = left
  induction left generalizing s with
  | nil =>
    rw [stringBody, peek_eq, hleft]
    simp [atEnd_iff.mpr hleft]
  | cons c rest ih =>
    rw [stringBody, peek_eq, hleft]
    simp only [List.headD_cons, atEnd_eq_false hleft]
    by_cases hc : c = '"'
    · simp [hc]
    · have htake : (c :: rest).takeWhile (· != '"') = c :: rest.takeWhile (· != '"') :=
        List.takeWhile_cons_of_pos (by simpa using hc)
      simp only [ne_eq, hc, not_false_eq_true, decide_true, Bool.not_false, Bool.and_true, if_true]
      have hadvanced {line : Nat} : advance cs.toArray { s with line := line } =
          .ok (c, { s with current := s.current + 1, line := line }) := advance_eq hleft
      split
      · rename_i e herror
        rw [hadvanced] at herror
        cases herror
      · rename_i d t hadvance
        rw [hadvanced] at hadvance
        cases hadvance
        rw [ih (drop_succ_of_cons hleft), htake, List.length_cons, List.count_cons]
        by_cases hn : c = '\n'
        · simp [hn, Nat.add_assoc, Nat.add_comm 1]
        · simp [hn, Nat.add_assoc, Nat.add_comm 1]

end

def past (s : Scanner) (seg : Segment) : Scanner :=
  let moved := { s with
    current := s.current + seg.chars.length
    line := s.line + seg.chars.count '\n' }
  match seg with
  | .blank _ | .comment _ => moved
  | .lexeme k w =>
    { moved with tokens := s.tokens.push ⟨k, .text (String.ofList w), Segment.literal k w, (moved.line : Nat)⟩ }
  | .unexpected c => moved.report (.unexpectedCharacter c)
  | .unterminated _ => moved.report .unterminatedString

section

variable {cs rest w after : List Char} {n : Nat} {c : Char} {s : Scanner} {k : Kind} {v : Value}

theorem addToken_eq (hw : IsLexeme k w v) (hk : k ≠ .string) (hstart : s.start = s.current)
    (h : w <+: cs.drop s.current) (hn : n = s.current + w.length) :
    addToken cs.toArray k v { s with current := n } = s.past (.lexeme k w) := by
  have hline : w.count '\n' = 0 := List.count_eq_zero.mpr (hw.newline_not_mem.resolve_left hk)
  obtain ⟨after, h⟩ := h
  subst hn
  simp [addToken, past, Segment.chars, hstart, slice_prefix h.symm, hline, literal_of_isLexeme hw]

theorem identifier_eq (ha : isAlpha c = true) (hstart : s.start = s.current) (h : cs.drop s.current = c :: rest) :
    identifier cs.toArray { s with current := s.current + 1 } = .ok (s.past (.lexeme
      (.ofWord (String.ofList (c :: rest.takeWhile isAlphanumeric))) (c :: rest.takeWhile isAlphanumeric))) := by
  have hw := isLexeme_word ha fun d (hd : d ∈ rest.takeWhile isAlphanumeric) => of_mem_takeWhile hd
  have happend : cs.drop s.current = (c :: rest.takeWhile isAlphanumeric) ++ rest.dropWhile isAlphanumeric := by
    rw [h, List.cons_append, List.takeWhile_append_dropWhile]
  have hn : s.current + 1 + (rest.takeWhile isAlphanumeric).length =
      s.current + (c :: rest.takeWhile isAlphanumeric).length := by
    rw [List.length_cons]
    omega
  rw [identifier, advanceWhile_class (by decide)]
  simp only [bind, Except.bind, pure, Except.pure, drop_succ_of_cons h]
  have hslice : slice cs.toArray s.start (s.current + 1 + (rest.takeWhile isAlphanumeric).length) =
      c :: rest.takeWhile isAlphanumeric := by
    rw [hn, hstart]
    exact slice_prefix happend
  rw [hslice]
  exact congrArg Except.ok (addToken_eq hw hw.ne_string hstart ⟨_, happend.symm⟩ hn)

theorem fraction_of_digit {d : Char} (hd : isDigit d = true) (h : cs.drop s.current = '.' :: d :: rest) :
    s.fraction cs.toArray = .ok { s with current := s.current + ('.' :: d :: rest.takeWhile isDigit).length } := by
  have htake : (d :: rest).takeWhile isDigit = d :: rest.takeWhile isDigit := List.takeWhile_cons_of_pos hd
  rw [fraction, peek_eq, peekNext_eq, advance_eq h, h, drop_succ_of_cons h]
  simp only [bind, Except.bind, List.headD_cons, hd, ne_eq, not_true_eq_false, if_false, Bool.not_true,
    Bool.false_eq_true]
  rw [advanceWhile_class (by decide), drop_succ_of_cons h, htake]
  simp [Nat.add_assoc, Nat.add_comm 1]

theorem fraction_of_not (h : ∀ d rest, cs.drop s.current = '.' :: d :: rest → isDigit d = false) :
    s.fraction cs.toArray = .ok s := by
  rw [fraction, peek_eq]
  cases hleft : cs.drop s.current with
  | nil => simp [bind, Except.bind, pure, Except.pure]
  | cons c rest =>
    by_cases hc : c = '.'
    · subst hc
      have hnext : isDigit (rest.headD '\x00') = false := by
        cases rest with
        | nil => decide
        | cons d ds => exact h d ds hleft
      rw [peekNext_eq, drop_succ_of_cons hleft]
      simp only [bind, Except.bind, pure, Except.pure, List.headD_cons, hnext, ne_eq, not_true_eq_false, if_false,
        Bool.not_false, if_true]
    · simp [bind, Except.bind, pure, Except.pure, hc]

theorem fraction_eq (h : cs.drop s.current = c :: rest) :
    fraction cs.toArray { s with current := s.current + 1 + (rest.takeWhile isDigit).length } =
      .ok { s with current := s.current + (Segment.number c rest).1.length } := by
  have hbehind : cs.drop (s.current + 1 + (rest.takeWhile isDigit).length) = rest.dropWhile isDigit := by
    refine drop_add ?_
    rw [drop_succ_of_cons h, List.takeWhile_append_dropWhile]
  unfold Segment.number
  dsimp only
  split
  · rename_i d tail hleft
    rw [hleft] at hbehind
    split
    · rename_i hdigit
      rw [fraction_of_digit hdigit hbehind]
      simp [Nat.add_assoc, Nat.add_comm 1, Nat.add_left_comm]
    · rename_i hdigit
      rw [fraction_of_not]
      · simp [Nat.add_assoc, Nat.add_comm 1]
      · intro d' tail' heq
        cases hbehind.symm.trans heq
        simpa using hdigit
  · rename_i hleft
    rw [fraction_of_not]
    · simp [Nat.add_assoc, Nat.add_comm 1]
    · intro d tail heq
      exact absurd (hbehind.symm.trans heq) (hleft d tail)

theorem number_eq (hd : isDigit c = true) (hstart : s.start = s.current) (h : cs.drop s.current = c :: rest) :
    number cs.toArray { s with current := s.current + 1 } = .ok (s.past (.lexeme .number (Segment.number c rest).1)) := by
  obtain ⟨v, hw⟩ : ∃ v, IsLexeme .number (Segment.number c rest).1 v := isLexeme_number hd
  have happend : cs.drop s.current = (Segment.number c rest).1 ++ (Segment.number c rest).2 := by
    rw [h, Segment.number_append]
  have hslice : slice cs.toArray s.start (s.current + (Segment.number c rest).1.length) = (Segment.number c rest).1 := by
    rw [hstart]
    exact slice_prefix happend
  rw [number, advanceWhile_class (by decide)]
  simp only [bind, Except.bind, pure, Except.pure, drop_succ_of_cons h, fraction_eq h, hslice]
  have hliteral := literal_of_isLexeme hw
  rw [← hliteral] at hw
  exact congrArg Except.ok (addToken_eq hw (by decide) hstart ⟨_, happend.symm⟩ rfl)

theorem string_eq (hstart : s.start = s.current) (h : cs.drop s.current = '"' :: rest) :
    string cs.toArray { s with current := s.current + 1 } = .ok (s.past (Segment.first '"' rest).1) := by
  have hrest := drop_succ_of_cons h
  have hbehind : cs.drop (s.current + 1 + (rest.takeWhile (· != '"')).length) = rest.dropWhile (· != '"') := by
    refine drop_add ?_
    rw [hrest, List.takeWhile_append_dropWhile]
  rw [string, stringBody_eq]
  simp only [bind, Except.bind, pure, Except.pure, hrest]
  cases hleft : rest.dropWhile (· != '"') with
  | nil =>
    have hfirst : (Segment.first '"' rest).1 = .unterminated (rest.takeWhile (· != '"')) := by
      simp [Segment.first, singleKind?, equalSuffixKinds?, hleft]
    rw [hleft] at hbehind
    rw [if_pos (atEnd_iff.mpr hbehind), hfirst]
    simp [past, Segment.chars, report, Nat.add_assoc, Nat.add_comm 1]
  | cons quote after =>
    have hfirst : (Segment.first '"' rest).1 = .lexeme .string ('"' :: rest.takeWhile (· != '"') ++ [quote]) := by
      simp [Segment.first, singleKind?, equalSuffixKinds?, hleft]
    have hquote : quote = '"' := by
      have hnot := List.head?_dropWhile_not (· != '"') rest
      rw [hleft] at hnot
      simpa using hnot
    have happend : cs.drop s.current = ('"' :: rest.takeWhile (· != '"') ++ [quote]) ++ after := by
      have hall := List.takeWhile_append_dropWhile (p := (· != '"')) (l := rest)
      rw [hleft] at hall
      simp [h, hall]
    have hclosed : cs.drop (s.current + 1) = rest.takeWhile (· != '"') ++ quote :: after := by
      rw [hrest, ← hleft, List.takeWhile_append_dropWhile]
    have hslice : slice cs.toArray s.current (s.current + ('"' :: rest.takeWhile (· != '"') ++ [quote]).length) =
        '"' :: rest.takeWhile (· != '"') ++ [quote] := slice_prefix happend
    have hbody : slice cs.toArray (s.current + 1) (s.current + 1 + (rest.takeWhile (· != '"')).length) =
        rest.takeWhile (· != '"') := slice_prefix hclosed
    rw [hleft] at hbehind
    generalize ht : ({ s with
      current := s.current + 1 + (rest.takeWhile (· != '"')).length
      line := s.line + (rest.takeWhile (· != '"')).count '\n' } : Scanner) = t
    have hcursor : cs.drop t.current = quote :: after := by
      rw [← ht]
      exact hbehind
    rw [if_neg (by simp [atEnd_eq_false hcursor]), advance_eq hcursor, hfirst]
    subst ht hquote
    have hlength : s.current + 1 + (rest.takeWhile (· != '"')).length + 1 =
        s.current + ('"' :: rest.takeWhile (· != '"') ++ ['"']).length := by
      simp [Nat.add_assoc, Nat.add_comm 1]
    dsimp only [addToken]
    rw [Nat.add_sub_cancel, hstart, hbody, hlength, hslice]
    simp [past, Segment.chars, Segment.literal, hstart]

theorem operator_eq {k' : Kind} (hsingle : singleKind? c = none) (hoperator : equalSuffixKinds? c = some (k, k'))
    (hstart : s.start = s.current) (h : cs.drop s.current = c :: rest) :
    (do
      let (suffix, t) ← accept cs.toArray '=' { s with current := s.current + 1 }
      return t.addToken cs.toArray (if suffix then k' else k) .nil) = .ok (s.past (Segment.first c rest).1) := by
  obtain ⟨halone, hsuffixed⟩ := isLexeme_operator hoperator
  simp only [Segment.first, hsingle, hoperator]
  obtain ⟨after, rfl, haccept⟩ | ⟨hnext, haccept⟩ :=
    accept_cases { s with current := s.current + 1 } '=' (drop_succ_of_cons h)
  · rw [haccept]
    exact congrArg Except.ok (addToken_eq hsuffixed hsuffixed.ne_string hstart (by simp [h]) rfl)
  · rw [haccept]
    split
    · exact (hnext _ rfl).elim
    · exact congrArg Except.ok (addToken_eq halone halone.ne_string hstart (by simp [h]) rfl)

theorem slash_eq (hstart : s.start = s.current) (h : cs.drop s.current = '/' :: rest) :
    (do
      let (comment, t) ← accept cs.toArray '/' { s with current := s.current + 1 }
      if comment then t.advanceWhile cs.toArray fun s c => c ≠ '\n' && !s.atEnd cs.toArray
      else return t.addToken cs.toArray .slash .nil) = .ok (s.past (Segment.first '/' rest).1) := by
  have hrest := drop_succ_of_cons h
  have hsingle : singleKind? '/' = none := rfl
  have hoperator : equalSuffixKinds? '/' = none := rfl
  simp only [Segment.first, hsingle, hoperator, if_true]
  obtain ⟨after, rfl, haccept⟩ | ⟨hnext, haccept⟩ := accept_cases { s with current := s.current + 1 } '/' hrest
  · have hline : List.count '\n' (after.takeWhile (· != '\n')) = 0 :=
      List.count_eq_zero.mpr (not_mem_takeWhile (by simp))
    rw [haccept]
    simp only [bind, Except.bind, if_true]
    rw [advanceWhile_comment, drop_succ_of_cons hrest]
    simp [past, Segment.chars, hline, Nat.add_assoc, Nat.add_comm 2]
  · rw [haccept]
    split
    · exact (hnext _ rfl).elim
    · exact congrArg Except.ok (addToken_eq (.sign (by decide)) (by decide) hstart (by simp [h]) rfl)

theorem scanToken_eq (hstart : s.start = s.current) (h : cs.drop s.current = c :: rest) :
    s.scanToken cs.toArray = .ok (s.past (Segment.first c rest).1) := by
  rw [scanToken, advance_eq h]
  simp only [bind, Except.bind, pure, Except.pure]
  cases hsingle : singleKind? c with
  | some k =>
    have hw := isLexeme_single hsingle
    simp only [Segment.first, hsingle]
    exact congrArg Except.ok (addToken_eq hw hw.ne_string hstart (by simp [h]) rfl)
  | none =>
  cases hoperator : equalSuffixKinds? c with
  | some p => exact operator_eq hsingle hoperator hstart h
  | none =>
  by_cases hslash : c = '/'
  · subst hslash
    exact slash_eq hstart h
  simp only [Segment.first, hsingle, hoperator]
  rw [if_neg hslash, if_neg hslash]
  by_cases hspace : c ∈ [' ', '\r', '\t']
  · have hblank : c = ' ' ∨ c = '\r' ∨ c = '\t' ∨ c = '\n' := by
      simp only [List.mem_cons, List.not_mem_nil, or_false] at hspace
      rcases hspace with h | h | h <;> simp [h]
    have hline : List.count '\n' [c] = 0 := List.count_eq_zero.mpr fun hm => by
      obtain rfl := List.mem_singleton.mp hm
      simp at hspace
    rw [if_pos hspace, if_pos hblank]
    simp [past, Segment.chars, hline]
  rw [if_neg hspace]
  by_cases hnewline : c = '\n'
  · subst hnewline
    rw [if_pos rfl, if_pos (by simp)]
    simp [past, Segment.chars]
  have hblank : ¬ (c = ' ' ∨ c = '\r' ∨ c = '\t' ∨ c = '\n') := by
    simpa [hnewline] using hspace
  rw [if_neg hnewline, if_neg hblank]
  by_cases hquote : c = '"'
  · subst hquote
    rw [if_pos rfl, if_pos rfl]
    exact string_eq hstart h
  rw [if_neg hquote, if_neg hquote]
  by_cases hdigit : isDigit c = true
  · rw [if_pos hdigit, if_pos hdigit]
    exact number_eq hdigit hstart h
  rw [if_neg hdigit, if_neg hdigit]
  by_cases halpha : isAlpha c = true
  · rw [if_pos halpha, if_pos halpha]
    exact identifier_eq halpha hstart h
  rw [if_neg halpha, if_neg halpha]
  have hline : List.count '\n' [c] = 0 := List.count_eq_zero.mpr (by simpa using Ne.symm hnewline)
  simp [past, Segment.chars, report, hline]

end

/-- The turns of the main loop from a scanner to one at the end: each moves the cursor past one segment. -/
inductive Turns (source : Array Char) : Scanner → List Segment → Scanner → Prop
  | done {s} : s.atEnd source = true → Turns source s [] s
  | turn {s s' s'' : Scanner} {seg segs} : s.atEnd source = false →
      scanToken source { s with start := s.current } = .ok s' → slice source s.current s'.current = seg.chars →
      Turns source s' segs s'' → Turns source s (seg :: segs) s''

def pastAll (s : Scanner) (ss : List Segment) : Scanner :=
  ss.foldl (fun s seg => past { s with start := s.current } seg) s

section

variable {cs left : List Char} {s : Scanner} {seg : Segment} {ss : List Segment}

@[simp] theorem past_current : (s.past seg).current = s.current + seg.chars.length := by
  cases seg <;> rfl

@[simp] theorem past_line : (s.past seg).line = s.line + seg.chars.count '\n' := by
  cases seg <;> rfl

theorem past_tokens : (s.past seg).tokens =
    (seg.token? (s.line + seg.chars.count '\n')).toList.foldl Array.push s.tokens := by
  cases seg <;> rfl

theorem past_errors : (s.past seg).errors =
    (seg.diagnostic? (s.line + seg.chars.count '\n')).toList.foldl Array.push s.errors := by
  cases seg <;> rfl

theorem past_reporter : (s.past seg).reporter =
    (seg.diagnostic? (s.line + seg.chars.count '\n')).toList.foldl (fun r d => r.map (·.syntaxError d)) s.reporter := by
  cases seg <;> rfl

theorem turns_segments (h : cs.drop s.current = left) :
    Turns cs.toArray s (segments left) (s.pastAll (segments left)) ∧
      scanTokens cs.toArray s = .ok { s.pastAll (segments left) with
        tokens := (s.pastAll (segments left)).tokens.push (endToken (s.pastAll (segments left)).line) } := by
  fun_induction segments left generalizing s with
  | case1 =>
    refine ⟨.done (atEnd_iff.mpr h), ?_⟩
    rw [scanTokens, if_pos (atEnd_iff.mpr h)]
    rfl
  | case2 c rest ih =>
    have happend := h.trans (Segment.chars_first_append c rest).symm
    have hstep : scanToken cs.toArray { s with start := s.current } =
        .ok (past { s with start := s.current } (Segment.first c rest).1) := scanToken_eq rfl h
    have hleft : cs.drop (past { s with start := s.current } (Segment.first c rest).1).current =
        (Segment.first c rest).2 := by
      rw [past_current]
      exact drop_add happend
    obtain ⟨hturns, hscan⟩ := ih hleft
    refine ⟨.turn (atEnd_eq_false h) hstep ?_ hturns, ?_⟩
    · rw [past_current]
      exact slice_prefix happend
    · rw [scanTokens, if_neg (by simp [atEnd_eq_false h])]
      dsimp only
      split
      · rename_i e herror
        rw [hstep] at herror
        cases herror
      · rename_i s' hok
        rw [hstep] at hok
        cases hok
        exact hscan

theorem pastAll_cons : s.pastAll (seg :: ss) = (past { s with start := s.current } seg).pastAll ss :=
  rfl

theorem pastAll_line : (s.pastAll ss).line = s.line + (ss.map Segment.chars).flatten.count '\n' := by
  induction ss generalizing s with
  | nil => rfl
  | cons seg ss ih => simp [pastAll_cons, ih, Nat.add_assoc]

theorem pastAll_foldl {α β : Type} (ss : List Segment) (part : Scanner → β) (add : β → α → β)
    (made : Segment → Nat → Option α)
    (hpast : ∀ (s : Scanner) (seg : Segment), part (past { s with start := s.current } seg) =
      (made seg (s.line + seg.chars.count '\n')).toList.foldl add (part s)) :
    part (s.pastAll ss) = ((Segment.numbered s.line ss).filterMap fun p => made p.2 p.1).foldl add (part s) := by
  induction ss generalizing s with
  | nil => rfl
  | cons seg ss ih =>
    rw [pastAll_cons, ih, hpast, past_line, Segment.numbered, List.filterMap_cons]
    cases made seg (s.line + seg.chars.count '\n') <;> rfl

theorem pastAll_tokens : (s.pastAll ss).tokens.toList =
    s.tokens.toList ++ (Segment.numbered s.line ss).filterMap fun p => p.2.token? p.1 := by
  rw [pastAll_foldl ss Scanner.tokens Array.push (fun seg line => seg.token? line) fun _ _ => past_tokens,
    List.foldl_push_eq_append', Array.toList_append]

theorem pastAll_errors : (s.pastAll ss).errors.toList =
    s.errors.toList ++ (Segment.numbered s.line ss).filterMap fun p => p.2.diagnostic? p.1 := by
  rw [pastAll_foldl ss Scanner.errors Array.push (fun seg line => seg.diagnostic? line) fun _ _ => past_errors,
    List.foldl_push_eq_append', Array.toList_append]

theorem pastAll_reporter (r : Reporter) (h : s.reporter = some r) : (s.pastAll ss).reporter =
    some (((Segment.numbered s.line ss).filterMap fun p => p.2.diagnostic? p.1).foldl Reporter.syntaxError r) := by
  rw [pastAll_foldl ss Scanner.reporter _ (fun seg line => seg.diagnostic? line) fun _ _ => past_reporter, h]
  exact List.foldl_hom some fun _ _ => rfl

end

end Scanner

/-- The tokens and errors that segments leave in the text behind `before`. Each stands on the line on which its segment
ends. -/
inductive Records : List Char → List Segment → List Token → List Diagnostic → Prop
  | nil {before} : Records before [] [] []
  | blank {before c ss ts ds} : Records (before ++ [c]) ss ts ds → Records before (.blank c :: ss) ts ds
  | comment {before body ss ts ds} :
      Records (before ++ '/' :: '/' :: body) ss ts ds → Records before (.comment body :: ss) ts ds
  | lexeme {before k w v ss ts ds} : IsLexeme k w v → Records (before ++ w) ss ts ds →
      Records before (.lexeme k w :: ss) (⟨k, .text (String.ofList w), v, (1 + (before ++ w).count '\n' : Nat)⟩ :: ts) ds
  | unexpected {before c ss ts ds} : Records (before ++ [c]) ss ts ds →
      Records before (.unexpected c :: ss) ts
        (⟨(1 + (before ++ [c]).count '\n' : Nat), .unnamed, .unexpectedCharacter c⟩ :: ds)
  | unterminated {before body ss ts ds} : Records (before ++ '"' :: body) ss ts ds →
      Records before (.unterminated body :: ss) ts
        (⟨(1 + (before ++ '"' :: body).count '\n' : Nat), .unnamed, .unterminatedString⟩ :: ds)

theorem records_of_segmentation {cs : List Char} {ss : List Segment} (h : Segmentation cs ss) (before : List Char) :
    Records before ss ((Segment.numbered (1 + before.count '\n') ss).filterMap fun p => p.2.token? p.1)
      ((Segment.numbered (1 + before.count '\n') ss).filterMap fun p => p.2.diagnostic? p.1) := by
  induction h generalizing before with
  | nil => exact .nil
  | @cons s ss after hs _ ih =>
    have ih := ih (before ++ s.chars)
    have hline : 1 + before.count '\n' + s.chars.count '\n' = 1 + (before ++ s.chars).count '\n' := by
      rw [List.count_append, Nat.add_assoc]
    rw [Segment.numbered, hline]
    cases hs with
    | blank => exact .blank ih
    | comment => exact .comment ih
    | lexeme hw =>
      have hrecords := Records.lexeme hw ih
      rwa [← literal_of_isLexeme hw] at hrecords
    | unexpected => exact .unexpected ih
    | unterminated => exact .unterminated ih

section

variable (source : String)

theorem drop_begin : source.toList.drop (Scanner.begin none).current = source.toList :=
  List.drop_zero

theorem scan_eq : scan source =
    ⟨(Segment.numbered 1 (segments source.toList)).filterMap (fun p => p.2.token? p.1) ++
      [endToken (1 + source.toList.count '\n' : Nat)],
    (Segment.numbered 1 (segments source.toList)).filterMap fun p => p.2.diagnostic? p.1⟩ := by
  obtain ⟨-, hscan⟩ := Scanner.turns_segments (s := .begin none) (drop_begin source)
  rw [scan, hscan]
  simp only [Array.toList_push, Scanner.pastAll_tokens, Scanner.pastAll_errors, Scanner.pastAll_line, flatten_segments]
  rfl

theorem scanning_eq_foldl (r : Reporter) :
    r.scanning source = (scan source).diagnostics.foldl Reporter.syntaxError r := by
  obtain ⟨-, hscan⟩ := Scanner.turns_segments (s := .begin (some r)) (drop_begin source)
  rw [Reporter.scanning, hscan, scan_eq]
  dsimp only
  rw [Scanner.pastAll_reporter r rfl]
  rfl

/-- The scanner ends without an index outside the source. Each call captures a segment, in the only way in which a text
can be cut into lexemes as long as they can be; the tokens are the lexemes with their values, and the errors what fits
nothing, in order. -/
theorem scan_segments : ∃ ss s, (∀ ss', Segmentation source.toList ss' ↔ ss' = ss) ∧
    (ss.map Segment.chars).flatten = source.toList ∧
    (∀ before body behind, ss = before ++ .unterminated body :: behind → behind = []) ∧
    Scanner.Turns source.toList.toArray (.begin none) ss s ∧
    Scanner.scanTokens source.toList.toArray (.begin none) =
      .ok { s with tokens := s.tokens.push ⟨.eof, .text "", .nil, (1 + source.toList.count '\n' : Nat)⟩ } ∧
    Records [] ss s.tokens.toList s.errors.toList ∧
    scan source =
      ⟨s.tokens.toList ++ [⟨.eof, .text "", .nil, (1 + source.toList.count '\n' : Nat)⟩], s.errors.toList⟩ := by
  have hseg : Segmentation source.toList (segments source.toList) := segmentation_iff.mpr rfl
  obtain ⟨hturns, hscan⟩ := Scanner.turns_segments (s := .begin none) (drop_begin source)
  have hend : endToken (Scanner.pastAll (.begin none) (segments source.toList)).line =
      ⟨.eof, .text "", .nil, (1 + source.toList.count '\n' : Nat)⟩ := by
    rw [Scanner.pastAll_line, flatten_segments]
    rfl
  have hrecords := records_of_segmentation hseg []
  rw [hend] at hscan
  refine ⟨segments source.toList, _, fun _ => segmentation_iff, flatten_segments _, ?_, hturns, hscan, ?_, ?_⟩
  · intro before body behind heq
    rw [heq] at hseg
    exact hseg.nil_of_unterminated
  · rw [Scanner.pastAll_tokens, Scanner.pastAll_errors]
    exact hrecords
  · rw [scan, hscan]
    simp

end

end Lox
