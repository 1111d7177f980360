import Lox.Ascent
import Lox.Proofs.Scanning

namespace Lox.Ascent

open Text

section

variable {c : Char} {cs : List Char}

theorem match?_of_comment : match? ('/' :: '/' :: cs) =
    some (none, '/' :: '/' :: cs.takeWhile (· != '\n'), cs.dropWhile (· != '\n')) := by
  simp [match?, terminals, run, comment, isSpace]

theorem match?_of_space (h : isSpace c = true) :
    match? (c :: cs) = some (none, c :: cs.takeWhile isSpace, cs.dropWhile isSpace) := by
  simp [match?, terminals, run, h]

theorem comment_eq_none (h : c ≠ '/') : comment (c :: cs) = none := by
  unfold comment
  split
  · rename_i heq
    cases heq
    exact absurd rfl h
  · rfl

theorem string_eq_none (h : c ≠ '"') : string (c :: cs) = none := by
  unfold string
  split
  · rename_i heq
    cases heq
    exact absurd rfl h
  · rfl

theorem run_eq_none {p : Char → Bool} (h : p c = false) : run p (c :: cs) = none := by
  simp [run, h]

theorem number_eq_none (h : isDigit c = false) : number (c :: cs) = none := by
  simp [number, run_eq_none h]

theorem name_eq_none (h : isAlpha c = false) : name (c :: cs) = none := by
  simp [name, word, h]

theorem match?_eq_marks (hspace : isSpace c = false) (hcomment : comment (c :: cs) = none) (hd : isDigit c = false)
    (hstring : string (c :: cs) = none) (hname : name (c :: cs) = none) :
    match? (c :: cs) = marks.findSome? fun m => (exactly m.1 (c :: cs)).map fun r => (some m.2, r.1, r.2) := by
  simp [match?, terminals, run_eq_none hspace, hcomment, number_eq_none hd, hstring, hname, List.findSome?_map,
    Function.comp_def]

theorem match?_of_mark (h : singleKind? c ≠ none ∨ equalSuffixKinds? c ≠ none) :
    match? (c :: cs) = marks.findSome? fun m => (exactly m.1 (c :: cs)).map fun r => (some m.2, r.1, r.2) := by
  have hmark : isSpace c = false ∧ c ≠ '/' ∧ isDigit c = false ∧ c ≠ '"' ∧ isAlpha c = false := by
    rcases h with h | h
    · unfold singleKind? at h
      split at h <;> first | decide | exact absurd rfl h
    · unfold equalSuffixKinds? at h
      split at h <;> first | decide | exact absurd rfl h
  obtain ⟨hspace, hslash, hd, hq, ha⟩ := hmark
  exact match?_eq_marks hspace (comment_eq_none hslash) hd (string_eq_none hq) (name_eq_none ha)

theorem match?_of_singleKind? {k : Kind} (h : singleKind? c = some k) :
    match? (c :: cs) = if k ∈ [.comma, .dot] then none else some (some k, [c], cs) := by
  rw [match?_of_mark (.inl (by simp [h]))]
  unfold singleKind? at h
  split at h <;> cases h <;> simp [marks, exactly]

theorem match?_of_suffixed {k k' : Kind} (h : equalSuffixKinds? c = some (k, k')) :
    match? (c :: '=' :: cs) = some (some k', [c, '='], cs) := by
  rw [match?_of_mark (.inr (by simp [h]))]
  unfold equalSuffixKinds? at h
  split at h <;> cases h <;> simp [marks, exactly]

theorem match?_of_alone {k k' : Kind} (h : equalSuffixKinds? c = some (k, k')) (hcs : ∀ rest, cs ≠ '=' :: rest) :
    match? (c :: cs) = some (some k, [c], cs) := by
  rw [match?_of_mark (.inr (by simp [h]))]
  unfold equalSuffixKinds? at h
  cases cs with
  | nil => split at h <;> cases h <;> simp [marks, exactly]
  | cons d ds =>
    have hne : '=' ≠ d := fun he => hcs ds (he ▸ rfl)
    split at h <;> cases h <;> simp [marks, exactly, hne]

theorem match?_of_slash (hcs : ∀ rest, cs ≠ '/' :: rest) : match? ('/' :: cs) = some (some .slash, ['/'], cs) := by
  have hcomment : comment ('/' :: cs) = none := by
    unfold comment
    split
    · rename_i heq
      cases heq
      exact absurd rfl (hcs _)
    · rfl
  rw [match?_eq_marks (by decide) hcomment (by decide) (string_eq_none (by decide)) (name_eq_none (by decide))]
  simp [marks, exactly]

theorem match?_of_string : match? ('"' :: cs) =
    match cs.dropWhile (· != '"') with
    | [] => none
    | quote :: rest => some (some .string, '"' :: cs.takeWhile (· != '"') ++ [quote], rest) := by
  have hspace : run isSpace ('"' :: cs) = none := run_eq_none (by decide)
  have hcomment : comment ('"' :: cs) = none := comment_eq_none (by decide)
  have hnumber : number ('"' :: cs) = none := number_eq_none (by decide)
  cases h : cs.dropWhile (· != '"') with
  | nil =>
    have hstring : string ('"' :: cs) = none := by simp [string, h]
    rw [match?_eq_marks (by decide) hcomment (by decide) hstring (name_eq_none (by decide))]
    simp [marks, exactly]
  | cons quote rest => simp [match?, terminals, hspace, hcomment, hnumber, string, h]

theorem isSpace_iff : isSpace c = true ↔ c = ' ' ∨ c = '\t' ∨ c = '\r' ∨ c = '\n' := by
  simp [isSpace, or_assoc]

theorem isSpace_eq_false_of_isDigit (h : isDigit c = true) : isSpace c = false := by
  apply Bool.eq_false_iff.mpr
  intro hc
  rcases isSpace_iff.mp hc with rfl | rfl | rfl | rfl <;> simp [isDigit] at h

theorem isSpace_eq_false_of_isAlpha (h : isAlpha c = true) : isSpace c = false := by
  apply Bool.eq_false_iff.mpr
  intro hc
  rcases isSpace_iff.mp hc with rfl | rfl | rfl | rfl <;> simp [isAlpha] at h

theorem match?_of_number {w rest : List Char} (hc : isDigit c = true) (h : number (c :: cs) = some (w, rest)) :
    match? (c :: cs) = some (some .number, w, rest) := by
  have hcomment : comment (c :: cs) = none := by
    apply comment_eq_none
    rintro rfl
    simp [isDigit] at hc
  simp [match?, terminals, run_eq_none (isSpace_eq_false_of_isDigit hc), hcomment, h]

theorem match?_of_isDigit (h : isDigit c = true) :
    match? (c :: cs) = some (some .number, (Segment.number c cs).1, (Segment.number c cs).2) := by
  refine match?_of_number h ?_
  have hrun : run isDigit (c :: cs) = some (c :: cs.takeWhile isDigit, cs.dropWhile isDigit) := by simp [run, h]
  simp only [number, hrun, Option.bind_eq_bind, Option.bind_some, Segment.number]
  split
  · rename_i rest hr
    simp only [hr]
    cases rest with
    | nil => simp [run]
    | cons d ds =>
      by_cases hd : isDigit d = true
      · simp [run, hd]
      · simp [run, hd]
  · rename_i rest hr
    split
    · rename_i d ds hr'
      exact absurd hr' (hr _)
    · rfl

theorem exactly_marks_eq_none (hs : singleKind? c = none) (he : equalSuffixKinds? c = none) (hc : c ≠ '/') :
    ∀ m ∈ marks, exactly m.1 (c :: cs) = none := by
  have hne : ∀ a ∈ ['!', '=', '>', '<', '-', '+', '/', '*', '(', ')', '{', '}', ';'], a ≠ c := by
    rintro a ha rfl
    simp only [List.mem_cons, List.not_mem_nil, or_false] at ha
    rcases ha with rfl | rfl | rfl | rfl | rfl | rfl | rfl | rfl | rfl | rfl | rfl | rfl | rfl <;>
      simp [singleKind?, equalSuffixKinds?] at hs he hc
  have hfirst : ∀ m ∈ marks, ∃ a as, m.1.toList = a :: as ∧
      a ∈ ['!', '=', '>', '<', '-', '+', '/', '*', '(', ')', '{', '}', ';'] := by
    simp [marks]
  intro m hm
  obtain ⟨a, as, ha, hmem⟩ := hfirst m hm
  simp [exactly, ha, hne a hmem]

theorem match?_eq_none (hs : singleKind? c = none) (he : equalSuffixKinds? c = none) (hc : c ≠ '/')
    (hspace : isSpace c = false) (hq : c ≠ '"') (hd : isDigit c = false) (hname : name (c :: cs) = none) :
    match? (c :: cs) = none := by
  rw [match?_eq_marks hspace (comment_eq_none hc) hd (string_eq_none hq) hname, List.findSome?_eq_none_iff]
  intro m hm
  rw [exactly_marks_eq_none hs he hc m hm, Option.map_none]

theorem singleKind?_eq_none (h : isWord c = true) : singleKind? c = none := by
  have hall : ∀ c ∈ ['(', ')', '{', '}', ',', '.', '-', '+', ';', '*'], isWord c = false := eq_false_of_all (by decide +kernel)
  cases hk : singleKind? c with
  | none => rfl
  | some k =>
    unfold singleKind? at hk
    split at hk <;> first | (cases hk; done) | (rw [hall _ (by simp)] at h; cases h)

theorem equalSuffixKinds?_eq_none (h : isWord c = true) : equalSuffixKinds? c = none := by
  have hall : ∀ c ∈ ['!', '=', '<', '>'], isWord c = false := eq_false_of_all (by decide +kernel)
  cases hk : equalSuffixKinds? c with
  | none => rfl
  | some k =>
    unfold equalSuffixKinds? at hk
    split at hk <;> first | (cases hk; done) | (rw [hall _ (by simp)] at h; cases h)

theorem isWord_of_isAlphanumeric (h : isAlphanumeric c = true) : isWord c = true := by
  have hranges : (0x30, 0x39) ∈ wordRanges ∧ (0x41, 0x5A) ∈ wordRanges ∧ (0x5F, 0x5F) ∈ wordRanges ∧
      (0x61, 0x7A) ∈ wordRanges := by decide +kernel
  have hin : ∀ {r : Nat × Nat}, r ∈ wordRanges → r.1 ≤ c.toNat → c.toNat ≤ r.2 → isWord c = true := by
    intro r hr hlow hhigh
    exact List.any_eq_true.mpr ⟨r, hr, by simp [hlow, hhigh]⟩
  obtain ⟨hdigit, hupper, hunder, hlower⟩ := hranges
  simp only [isAlphanumeric, isAlpha, isDigit, Bool.or_eq_true, Bool.and_eq_true, decide_eq_true_eq, beq_iff_eq] at h
  rcases h with ((⟨h, h'⟩ | ⟨h, h'⟩) | rfl) | ⟨h, h'⟩
  · exact hin hlower h h'
  · exact hin hupper h h'
  · exact hin hunder (Nat.le_refl _) (Nat.le_refl _)
  · exact hin hdigit h h'

theorem match?_of_isWord (h : isWord c = true) (h' : isAlphanumeric c = false) : match? (c :: cs) = none := by
  have hall : ∀ c ∈ ['/', '"', ' ', '\t', '\r', '\n'], isWord c = false := eq_false_of_all (by decide +kernel)
  have hne : ∀ d ∈ ['/', '"', ' ', '\t', '\r', '\n'], c ≠ d := by
    rintro d hd rfl
    rw [hall c hd] at h
    cases h
  simp only [isAlphanumeric, Bool.or_eq_false_iff] at h'
  have hspace : isSpace c = false := by
    apply Bool.eq_false_iff.mpr
    intro hs
    rcases isSpace_iff.mp hs with hs | hs | hs | hs <;> exact hne _ (by simp) hs
  exact match?_eq_none (singleKind?_eq_none h) (equalSuffixKinds?_eq_none h) (hne _ (by simp)) hspace (hne _ (by simp))
    h'.2 (name_eq_none h'.1)

theorem beginsReserved_eq_true (h : beginsReserved cs = true) :
    String.ofList (cs.takeWhile isAlphanumeric) ∈ reserved := by
  obtain ⟨w, hw, h⟩ := List.any_eq_true.mp h
  simp only [Bool.and_eq_true, Bool.not_eq_true', List.isPrefixOf_iff_prefix] at h
  obtain ⟨⟨rest, rfl⟩, hnext⟩ := h
  have hall : ∀ w ∈ reserved, w.toList.all isAlphanumeric = true := by decide
  rw [List.drop_left] at hnext
  have hrest : ∀ c ∈ rest.head?, isAlphanumeric c = false := by
    intro c hc
    apply Bool.eq_false_iff.mpr
    intro halnum
    rw [hc, Option.any_some, isWord_of_isAlphanumeric halnum] at hnext
    cases hnext
  rw [takeWhile_eq (List.all_eq_true.mp (hall w hw)) hrest, String.ofList_toList]
  exact hw

theorem beginsReserved_eq_false (h : beginsReserved cs = false)
    (hw : String.ofList (cs.takeWhile isAlphanumeric) ∈ reserved) :
    ∃ d ds, cs.dropWhile isAlphanumeric = d :: ds ∧ isWord d = true ∧ isAlphanumeric d = false := by
  have h := List.any_eq_false.mp h _ hw
  simp only [Bool.and_eq_true, Bool.not_eq_true', not_and, Bool.not_eq_false, String.toList_ofList,
    List.isPrefixOf_iff_prefix] at h
  have h := h (List.takeWhile_prefix _)
  have hdrop : cs.drop (cs.takeWhile isAlphanumeric).length = cs.dropWhile isAlphanumeric := by
    have heq : (cs.takeWhile isAlphanumeric ++ cs.dropWhile isAlphanumeric).drop (cs.takeWhile isAlphanumeric).length =
        cs.dropWhile isAlphanumeric := List.drop_left
    rwa [List.takeWhile_append_dropWhile] at heq
  rw [hdrop] at h
  have hnot := List.head?_dropWhile_not isAlphanumeric cs
  cases hrest : cs.dropWhile isAlphanumeric with
  | nil => simp [hrest] at h
  | cons d ds =>
    rw [hrest] at h hnot
    exact ⟨d, ds, rfl, by simpa using h, by simpa using hnot⟩

theorem kindOfName_eq {w : String} (h : w ∉ reserved) : kindOfName w = Kind.ofWord w := by
  have hall : ∀ p ∈ Kind.keywords, p.1 ∉ reserved → kindOfName p.1 = Kind.ofWord p.1 := by decide
  have hsub : ∀ p ∈ keywords, p ∈ Kind.keywords := by decide
  by_cases hk : ∃ k, (w, k) ∈ Kind.keywords
  · obtain ⟨k, hk⟩ := hk
    exact hall _ hk h
  · have hk : ∀ k, (w, k) ∉ Kind.keywords := fun k hm => hk ⟨k, hm⟩
    have hnone : keywords.lookup w = none := by
      refine List.lookup_eq_none_iff.mpr fun p hp => ?_
      rw [bne_iff_ne]
      rintro rfl
      exact hk _ (hsub p hp)
    rw [ofWord_of_not_keyword hk, kindOfName, hnone, Option.getD_none]

theorem match?_of_isAlpha (h : isAlpha c = true) :
    match? (c :: cs) = if beginsReserved (c :: cs) then none else
      some (some (kindOfName (String.ofList (c :: cs.takeWhile isAlphanumeric))), c :: cs.takeWhile isAlphanumeric,
        cs.dropWhile isAlphanumeric) := by
  have hword : isWord c = true := isWord_of_isAlphanumeric (by simp [isAlphanumeric, h])
  have hd : isDigit c = false := isDigit_eq_false_of_isAlpha h
  have hc : c ≠ '/' := by
    rintro rfl
    simp [isAlpha] at h
  have hq : c ≠ '"' := by
    rintro rfl
    simp [isAlpha] at h
  have hspace := isSpace_eq_false_of_isAlpha h
  by_cases hr : beginsReserved (c :: cs) = true
  · rw [if_pos hr]
    exact match?_eq_none (singleKind?_eq_none hword) (equalSuffixKinds?_eq_none hword) hc hspace hq hd (by simp [name, hr])
  · rw [if_neg hr]
    simp [match?, terminals, run_eq_none hspace, comment_eq_none hc, number_eq_none hd, string_eq_none hq, name, hr,
      word, h]

def refused : List Kind :=
  [.comma, .dot, .classWord, .funWord, .returnWord, .superWord, .thisWord]

theorem ofWord_refused {w : String} (h : w ∈ reserved) : Kind.ofWord w ∈ refused := by
  have hall : ∀ w ∈ reserved, Kind.ofWord w ∈ refused := by decide
  exact hall w h

end

inductive Takes (c : Char) (cs : List Char) : Segment → List Char → Prop
  | blank : isSpace c = true → Takes c cs (.blank c) cs
  | comment {body rest} : match? (c :: cs) = some (none, '/' :: '/' :: body, rest) → Takes c cs (.comment body) rest
  | lexeme {k w rest} : match? (c :: cs) = some (some k, w, rest) → k = .string ∨ List.count '\n' w = 0 →
      Takes c cs (.lexeme k w) rest
  | refused {k w rest} : k ∈ refused → (match? (c :: cs) = none ∨
      ∃ k', match? (c :: cs) = some (some k', w, rest) ∧ match? rest = none ∧ rest ≠ []) → Takes c cs (.lexeme k w) rest
  | unexpected : match? (c :: cs) = none → Takes c cs (.unexpected c) cs
  | unterminated {body} : match? (c :: cs) = none → Takes c cs (.unterminated body) []

theorem takes_word {c : Char} {cs : List Char} (ha : isAlpha c = true) :
    Takes c cs (.lexeme (.ofWord (String.ofList (c :: cs.takeWhile isAlphanumeric))) (c :: cs.takeWhile isAlphanumeric))
      (cs.dropWhile isAlphanumeric) := by
  have hm := @match?_of_isAlpha c cs ha
  have htake : (c :: cs).takeWhile isAlphanumeric = c :: cs.takeWhile isAlphanumeric := by simp [isAlphanumeric, ha]
  have hdrop : (c :: cs).dropWhile isAlphanumeric = cs.dropWhile isAlphanumeric := by simp [isAlphanumeric, ha]
  by_cases hr : String.ofList (c :: cs.takeWhile isAlphanumeric) ∈ reserved
  · refine .refused (ofWord_refused hr) ?_
    by_cases hb : beginsReserved (c :: cs) = true
    · exact .inl (by rw [hm, if_pos hb])
    · have hb : beginsReserved (c :: cs) = false := by simpa using hb
      obtain ⟨d, ds, hrest, hword, halnum⟩ := beginsReserved_eq_false hb (htake ▸ hr)
      rw [hdrop] at hrest
      refine .inr ⟨_, by rw [hm, if_neg (by simp [hb])], ?_, by simp [hrest]⟩
      rw [hrest]
      exact match?_of_isWord hword halnum
  · have hb : ¬ beginsReserved (c :: cs) = true := fun hb => hr (htake ▸ beginsReserved_eq_true hb)
    rw [if_neg hb, kindOfName_eq (htake ▸ hr)] at hm
    refine .lexeme hm (.inr (List.count_eq_zero.mpr ?_))
    rw [← htake]
    exact not_mem_takeWhile (by decide)

theorem takes_first (c : Char) (cs : List Char) : Takes c cs (Segment.first c cs).1 (Segment.first c cs).2 := by
  unfold Segment.first
  split
  · rename_i k hk
    have hm := @match?_of_singleKind? c cs k hk
    split at hm
    · rename_i hrefused
      refine .refused ?_ (.inl hm)
      simp only [List.mem_cons, List.not_mem_nil, or_false] at hrefused
      rcases hrefused with rfl | rfl <;> decide
    · refine .lexeme hm (.inr (List.count_eq_zero.mpr ?_))
      rw [List.mem_singleton]
      rintro rfl
      cases hk
  rename_i hsingle
  split
  · rename_i k k' hk
    have hc : '\n' ≠ c := by
      rintro rfl
      cases hk
    split
    · exact .lexeme (match?_of_suffixed hk) (.inr (List.count_eq_zero.mpr (by simp [hc])))
    · rename_i hcs
      exact .lexeme (match?_of_alone hk hcs) (.inr (List.count_eq_zero.mpr (by simp [hc])))
  rename_i hequal
  split
  · rename_i hc
    subst hc
    split
    · exact .comment match?_of_comment
    · rename_i hcs
      exact .lexeme (match?_of_slash hcs) (.inr rfl)
  rename_i hslash
  split
  · rename_i hblank
    exact .blank (isSpace_iff.mpr (by rcases hblank with h | h | h | h <;> simp [h]))
  rename_i hblank
  have hspace : isSpace c = false := by
    apply Bool.eq_false_iff.mpr
    intro h
    rcases isSpace_iff.mp h with h | h | h | h <;> simp [h] at hblank
  have hsingle : singleKind? c = none := by
    cases h : singleKind? c with
    | none => rfl
    | some k => exact absurd h (hsingle k)
  have hequal : equalSuffixKinds? c = none := by
    cases h : equalSuffixKinds? c with
    | none => rfl
    | some k => exact absurd h (hequal k.1 k.2)
  split
  · rename_i hc
    subst hc
    have hm := @match?_of_string cs
    dsimp only
    split <;> rename_i hr <;> rw [hr] at hm
    · exact .unterminated hm
    · exact .lexeme hm (.inl rfl)
  rename_i hquote
  split
  · rename_i hd
    obtain ⟨v, hw⟩ : ∃ v, IsLexeme .number (Segment.number c cs).1 v := isLexeme_number hd
    exact .lexeme (match?_of_isDigit hd) (.inr (List.count_eq_zero.mpr (hw.newline_not_mem.resolve_left (by decide))))
  rename_i hd
  have hd : isDigit c = false := by simpa using hd
  split
  · rename_i ha
    exact takes_word ha
  · rename_i ha
    exact .unexpected (match?_eq_none hsingle hequal hslash hspace hquote hd (name_eq_none (by simpa using ha)))

end Lox.Ascent
