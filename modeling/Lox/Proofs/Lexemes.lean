import Lox.Proofs.Segments

/-!
The lexemes, and what scanning makes of a text: it is cut in the only way in which every segment has its shape and
every lexeme is as long as it can be. Main statement: `segmentation_iff`.
-/
namespace Lox

open Text

def signs : List (List Char × Kind) :=
  [(['('], .leftParen), ([')'], .rightParen), (['{'], .leftBrace), (['}'], .rightBrace), ([','], .comma), (['.'], .dot),
    (['-'], .minus), (['+'], .plus), ([';'], .semicolon), (['/'], .slash), (['*'], .star), (['!'], .bang),
    (['!', '='], .bangEqual), (['='], .equal), (['=', '='], .equalEqual), (['<'], .less), (['<', '='], .lessEqual),
    (['>'], .greater), (['>', '='], .greaterEqual)]

/-- The texts that are lexemes of a kind, with the values that they write. -/
inductive IsLexeme : Kind → List Char → Value → Prop
  | sign {k w} : (w, k) ∈ signs → IsLexeme k w .nil
  | whole {ds} : ds ≠ [] → (∀ d ∈ ds, isDigit d = true) → IsLexeme .number ds (.number (Number.ofDecimal ds []))
  | decimal {ds fs} : ds ≠ [] → fs ≠ [] → (∀ d ∈ ds, isDigit d = true) → (∀ d ∈ fs, isDigit d = true) →
      IsLexeme .number (ds ++ '.' :: fs) (.number (Number.ofDecimal ds fs))
  | keyword {w k} : (w, k) ∈ Kind.keywords → IsLexeme k w.toList .nil
  | identifier {c cs} : isAlpha c = true → (∀ d ∈ cs, isAlphanumeric d = true) →
      (∀ k, (String.ofList (c :: cs), k) ∉ Kind.keywords) → IsLexeme .identifier (c :: cs) .nil
  | string {body} : '"' ∉ body → IsLexeme .string ('"' :: body ++ ['"']) (.text (String.ofList body))

/-- A segment that is cut off a text, and the text behind it. -/
inductive Segment.Fits : Segment → List Char → Prop
  | blank {c after} : c ∈ [' ', '\r', '\t', '\n'] → Fits (.blank c) after
  | comment {body after} : '\n' ∉ body → (∀ c ∈ after.head?, c = '\n') → Fits (.comment body) after
  | lexeme {k w v after} : IsLexeme k w v → ¬ ['/', '/'] <+: w ++ after →
      (∀ k' w' v', IsLexeme k' w' v' → w' <+: w ++ after → w'.length ≤ w.length) → Fits (.lexeme k w) after
  | unexpected {c after} : c ∉ [' ', '\r', '\t', '\n', '"'] → (∀ k w v, IsLexeme k w v → ¬ w <+: c :: after) →
      Fits (.unexpected c) after
  | unterminated {body} : '"' ∉ body → Fits (.unterminated body) []

/-- A text cut into segments from left to right. -/
inductive Segmentation : List Char → List Segment → Prop
  | nil : Segmentation [] []
  | cons {s ss after} : s.Fits after → Segmentation after ss → Segmentation (s.chars ++ after) (s :: ss)

inductive Shaped (c : Char) (cs : List Char) : Segment × List Char → Prop
  | blank : c ∈ [' ', '\r', '\t', '\n'] → Shaped c cs (.blank c, cs)
  | comment {rest} : c = '/' → cs = '/' :: rest →
      Shaped c cs (.comment (rest.takeWhile (· != '\n')), rest.dropWhile (· != '\n'))
  | lexeme {k w v after} : IsLexeme k w v → ¬ ['/', '/'] <+: c :: cs → Shaped c cs (.lexeme k w, after)
  | unexpected : c ∉ [' ', '\r', '\t', '\n', '"'] → Shaped c cs (.unexpected c, cs)
  | unterminated : c = '"' → '"' ∉ cs → Shaped c cs (.unterminated cs, [])

section

variable {c : Char} {cs after w : List Char} {k : Kind} {v : Value}

def special : List Char :=
  ['(', ')', '{', '}', ',', '.', '-', '+', ';', '*', '!', '=', '<', '>', '/', ' ', '\r', '\t', '\n', '"']

theorem of_mem_takeWhile {p : Char → Bool} {d : Char} (h : d ∈ cs.takeWhile p) : p d = true :=
  List.all_eq_true.mp List.all_takeWhile d h

theorem not_mem_takeWhile {p : Char → Bool} {d : Char} (h : p d = false) : d ∉ cs.takeWhile p := by
  intro hm
  rw [of_mem_takeWhile hm] at h
  cases h

theorem takeWhile_eq {p : Char → Bool} (hw : ∀ c ∈ w, p c = true) (hafter : ∀ c ∈ after.head?, p c = false) :
    (w ++ after).takeWhile p = w := by
  rw [List.takeWhile_append_of_pos hw]
  cases after with
  | nil => simp
  | cons d ds => simp [hafter d (by simp)]

theorem dropWhile_eq {p : Char → Bool} (hw : ∀ c ∈ w, p c = true) (hafter : ∀ c ∈ after.head?, p c = false) :
    (w ++ after).dropWhile p = after := by
  rw [List.dropWhile_append_of_pos hw]
  cases after with
  | nil => rfl
  | cons d ds => simp [hafter d (by simp)]

theorem length_le_takeWhile {p : Char → Bool} (hw : ∀ c ∈ w, p c = true) :
    w.length ≤ ((w ++ after).takeWhile p).length := by
  rw [List.takeWhile_append_of_pos hw, List.length_append]
  omega

theorem eq_false_of_all {p : Char → Bool} (h : (w.all fun d => !p d) = true) : ∀ d ∈ w, p d = false := by
  simpa using h

theorem isDigit_eq_false_of_isAlpha (h : isAlpha c = true) : isDigit c = false := by
  apply Bool.eq_false_iff.mpr
  intro hd
  simp only [isAlpha, isDigit, Bool.or_eq_true, Bool.and_eq_true, decide_eq_true_eq, beq_iff_eq] at h hd
  have hhigh : c.toNat ≤ 57 := hd.2
  rcases h with (⟨h, -⟩ | ⟨h, -⟩) | rfl
  · have hlow : 97 ≤ c.toNat := h
    omega
  · have hlow : 65 ≤ c.toNat := h
    omega
  · exact absurd hhigh (by decide)

theorem first_of_not_special (h : c ∉ special) : Segment.first c cs =
    if isDigit c then (.lexeme .number (Segment.number c cs).1, (Segment.number c cs).2)
    else if isAlpha c then
      (.lexeme (.ofWord (String.ofList (c :: cs.takeWhile isAlphanumeric))) (c :: cs.takeWhile isAlphanumeric),
        cs.dropWhile isAlphanumeric)
    else (.unexpected c, cs) := by
  have hne : ∀ d ∈ special, c ≠ d := by
    rintro d hd rfl
    exact h hd
  have hsingle : singleKind? c = none := by
    unfold singleKind?
    split <;> first | rfl | exact absurd rfl (hne _ (by decide))
  have hsuffix : equalSuffixKinds? c = none := by
    unfold equalSuffixKinds?
    split <;> first | rfl | exact absurd rfl (hne _ (by decide))
  unfold Segment.first
  rw [hsingle, hsuffix]
  simp only [hne '/' (by decide), hne ' ' (by decide), hne '\r' (by decide), hne '\t' (by decide), hne '\n' (by decide),
    hne '"' (by decide), or_false, if_false]

theorem first_of_isDigit (h : isDigit c = true) :
    Segment.first c cs = (.lexeme .number (Segment.number c cs).1, (Segment.number c cs).2) := by
  have hall : ∀ d ∈ special, isDigit d = false := eq_false_of_all (by decide +kernel)
  have hc : c ∉ special := fun hm => Bool.false_ne_true ((hall c hm).symm.trans h)
  rw [first_of_not_special hc, if_pos h]

theorem first_of_isAlpha (h : isAlpha c = true) : Segment.first c cs =
    (.lexeme (.ofWord (String.ofList (c :: cs.takeWhile isAlphanumeric))) (c :: cs.takeWhile isAlphanumeric),
      cs.dropWhile isAlphanumeric) := by
  have hall : ∀ d ∈ special, isAlpha d = false := eq_false_of_all (by decide +kernel)
  have hc : c ∉ special := fun hm => Bool.false_ne_true ((hall c hm).symm.trans h)
  have hd := isDigit_eq_false_of_isAlpha h
  rw [first_of_not_special hc, if_neg (by simp [hd]), if_pos h]

theorem first_of_sign (h : (w, k) ∈ signs) (hw : c :: cs = w ++ after) : (∃ body, (Segment.first c cs).1 = .comment body) ∨
    ∃ k' w', (Segment.first c cs).1 = .lexeme k' w' ∧ w.length ≤ w'.length ∧ (w' = w → k' = k) := by
  simp only [signs, List.mem_cons, List.not_mem_nil, or_false, Prod.mk.injEq] at h
  rcases h with h | h | h | h | h | h | h | h | h | h | h | h | h | h | h | h | h | h | h <;>
    obtain ⟨rfl, rfl⟩ := h <;> cases hw <;>
    first
    | exact .inr ⟨_, _, rfl, Nat.le_refl _, fun _ => rfl⟩
    | (simp [Segment.first, singleKind?, equalSuffixKinds?]; split <;>
        first | exact .inr ⟨_, _, rfl, by simp, by simp⟩ | exact .inl ⟨_, rfl⟩)

theorem length_le_number (h : ∀ d ∈ w, isDigit d = true) (hw : cs = w ++ after) :
    (c :: w).length ≤ (Segment.number c cs).1.length := by
  have hlen : w.length ≤ (cs.takeWhile isDigit).length := by
    rw [hw]
    exact length_le_takeWhile h
  unfold Segment.number
  dsimp only
  split
  · split
    · simp only [List.length_cons, List.length_append]
      omega
    · simpa using hlen
  · simpa using hlen

theorem length_le_decimal {fs : List Char} (h : ∀ d ∈ w, isDigit d = true) (hfs : ∀ d ∈ fs, isDigit d = true)
    (hne : fs ≠ []) (hw : cs = w ++ '.' :: fs ++ after) :
    (c :: w ++ '.' :: fs).length ≤ (Segment.number c cs).1.length := by
  obtain ⟨f, fs, rfl⟩ := List.exists_cons_of_ne_nil hne
  rw [List.append_assoc] at hw
  have hdot : ∀ d ∈ ('.' :: (f :: fs) ++ after).head?, isDigit d = false := by simp [isDigit]
  have htake : cs.takeWhile isDigit = w := hw ▸ takeWhile_eq h hdot
  have hdrop : cs.dropWhile isDigit = '.' :: f :: (fs ++ after) := hw ▸ dropWhile_eq h hdot
  have hlen : fs.length ≤ ((fs ++ after).takeWhile isDigit).length :=
    length_le_takeWhile fun d hd => hfs d (by simp [hd])
  unfold Segment.number
  dsimp only
  rw [htake, hdrop]
  simp only [hfs f (by simp), if_true, List.length_cons, List.length_append]
  omega

theorem word_of_keyword {s : String} (h : (s, k) ∈ Kind.keywords) : Kind.ofWord s = k ∧
    ∃ a as, s.toList = a :: as ∧ isAlpha a = true ∧ ∀ d ∈ as, isAlphanumeric d = true := by
  have hall : ∀ p ∈ Kind.keywords, Kind.ofWord p.1 = p.2 ∧ p.1.toList ≠ [] ∧ isAlpha (p.1.toList.headD ' ') = true ∧
      p.1.toList.tail.all isAlphanumeric = true := by decide
  obtain ⟨hk, hne, ha, has⟩ := hall _ h
  obtain ⟨a, as, heq⟩ := List.exists_cons_of_ne_nil hne
  dsimp only at ha has
  rw [heq] at ha has
  exact ⟨hk, a, as, heq, ha, List.all_eq_true.mp has⟩

theorem ofWord_of_not_keyword {s : String} (h : ∀ k, (s, k) ∉ Kind.keywords) : Kind.ofWord s = .identifier := by
  have hnone : Kind.keywords.lookup s = none := by
    refine List.lookup_eq_none_iff.mpr fun p hp => bne_iff_ne.mpr ?_
    rintro rfl
    exact h p.2 hp
  rw [Kind.ofWord, hnone, Option.getD_none]

theorem first_of_word (h : isAlpha c = true) (hw : ∀ d ∈ w, isAlphanumeric d = true) (hcs : cs = w ++ after) :
    ∃ k' w', (Segment.first c cs).1 = .lexeme k' w' ∧ (c :: w).length ≤ w'.length ∧
      (w' = c :: w → k' = .ofWord (String.ofList (c :: w))) := by
  rw [first_of_isAlpha h]
  refine ⟨_, _, rfl, ?_, fun heq => by rw [heq]⟩
  rw [hcs, List.length_cons, List.length_cons]
  exact Nat.succ_le_succ (length_le_takeWhile hw)

theorem first_of_isLexeme (h : IsLexeme k w v) (hw : c :: cs = w ++ after) :
    (∃ body, (Segment.first c cs).1 = .comment body) ∨
      ∃ k' w', (Segment.first c cs).1 = .lexeme k' w' ∧ w.length ≤ w'.length ∧ (w' = w → k' = k) := by
  cases h with
  | sign hm => exact first_of_sign hm hw
  | whole hne hd =>
    obtain ⟨d, ds, rfl⟩ := List.exists_cons_of_ne_nil hne
    cases hw
    rw [first_of_isDigit (hd c (by simp))]
    exact .inr ⟨_, _, rfl, length_le_number (fun e he => hd e (by simp [he])) rfl, fun _ => rfl⟩
  | @decimal ds fs hne hne' hd hf =>
    obtain ⟨d, ds, rfl⟩ := List.exists_cons_of_ne_nil hne
    cases hw
    rw [first_of_isDigit (hd c (by simp))]
    exact .inr ⟨_, _, rfl, length_le_decimal (fun e he => hd e (by simp [he])) hf hne' rfl, fun _ => rfl⟩
  | @keyword s _ hm =>
    obtain ⟨hk, a, as, heq, ha, has⟩ := word_of_keyword hm
    obtain rfl : s = String.ofList (a :: as) := by rw [← heq, String.ofList_toList]
    rw [String.toList_ofList] at hw ⊢
    cases hw
    rw [← hk]
    exact .inr (first_of_word ha has rfl)
  | identifier ha has hnot =>
    cases hw
    rw [← ofWord_of_not_keyword hnot]
    exact .inr (first_of_word ha has rfl)
  | @string body hq =>
    cases hw
    have hall : ∀ d ∈ body, (d != '"') = true := by
      intro d hd
      simp only [bne_iff_ne, ne_eq]
      rintro rfl
      exact hq hd
    have hquote : ∀ d ∈ ('"' :: after).head?, (d != '"') = false := by simp
    have htake := takeWhile_eq hall hquote
    have hdrop := dropWhile_eq hall hquote
    refine .inr ⟨.string, '"' :: body ++ ['"'], ?_, Nat.le_refl _, fun _ => rfl⟩
    simp [Segment.first, singleKind?, equalSuffixKinds?, htake, hdrop]

theorem isLexeme_word (h : isAlpha c = true) (hw : ∀ d ∈ w, isAlphanumeric d = true) :
    IsLexeme (.ofWord (String.ofList (c :: w))) (c :: w) .nil := by
  unfold Kind.ofWord
  cases hk : Kind.keywords.lookup (String.ofList (c :: w)) with
  | none =>
    refine .identifier h hw fun k hm => ?_
    simpa using List.lookup_eq_none_iff.mp hk _ hm
  | some k =>
    obtain ⟨before, behind, heq, -⟩ := List.lookup_eq_some_iff.mp hk
    have hm : (String.ofList (c :: w), k) ∈ Kind.keywords := by simp [heq]
    simpa using IsLexeme.keyword hm

theorem isLexeme_number (h : isDigit c = true) : ∃ v, IsLexeme .number (Segment.number c cs).1 v := by
  have hwhole : ∀ d ∈ c :: cs.takeWhile isDigit, isDigit d = true :=
    List.forall_mem_cons.mpr ⟨h, fun d hd => of_mem_takeWhile hd⟩
  unfold Segment.number
  dsimp only
  split
  · split
    · rename_i d rest _ hd
      have hfraction : ∀ e ∈ d :: rest.takeWhile isDigit, isDigit e = true :=
        List.forall_mem_cons.mpr ⟨hd, fun e he => of_mem_takeWhile he⟩
      exact ⟨_, .decimal (by simp) (by simp) hwhole hfraction⟩
    · exact ⟨_, .whole (by simp) hwhole⟩
  · exact ⟨_, .whole (by simp) hwhole⟩

theorem isLexeme_single (h : singleKind? c = some k) : IsLexeme k [c] .nil := by
  unfold singleKind? at h
  split at h <;> cases h <;> exact .sign (by decide)

theorem isLexeme_operator {k' : Kind} (h : equalSuffixKinds? c = some (k, k')) :
    IsLexeme k [c] .nil ∧ IsLexeme k' [c, '='] .nil := by
  unfold equalSuffixKinds? at h
  split at h <;> cases h <;> exact ⟨.sign (by decide), .sign (by decide)⟩

theorem not_comment (h : c ≠ '/') : ¬ ['/', '/'] <+: c :: cs := by
  intro hp
  exact h (List.cons_prefix_cons.mp hp).1.symm

theorem first_shaped (c : Char) (cs : List Char) : Shaped c cs (Segment.first c cs) := by
  unfold Segment.first
  split
  · rename_i k hk
    refine .lexeme (isLexeme_single hk) (not_comment ?_)
    rintro rfl
    cases hk
  split
  · rename_i k k' hk
    have hc : c ≠ '/' := by
      rintro rfl
      cases hk
    split
    · exact .lexeme (isLexeme_operator hk).2 (not_comment hc)
    · exact .lexeme (isLexeme_operator hk).1 (not_comment hc)
  split
  · rename_i hc
    subst hc
    split
    · exact .comment rfl rfl
    · rename_i hcs
      refine .lexeme (.sign (by decide)) fun hp => ?_
      obtain ⟨rest, hrest⟩ := (List.cons_prefix_cons.mp hp).2
      exact hcs rest hrest.symm
  rename_i hslash
  split
  · rename_i hc
    exact .blank (by simpa using hc)
  rename_i hblank
  split
  · rename_i hc
    subst hc
    dsimp only
    split
    · rename_i hcs
      have htake : cs.takeWhile (· != '"') = cs := by
        rw [← List.append_nil (cs.takeWhile _), ← hcs, List.takeWhile_append_dropWhile]
      rw [htake]
      refine .unterminated rfl ?_
      rw [← htake]
      exact not_mem_takeWhile (by simp)
    · rename_i quote rest hcs
      have hnot := List.head?_dropWhile_not (· != '"') cs
      rw [hcs] at hnot
      obtain rfl : quote = '"' := by simpa using hnot
      exact .lexeme (.string (not_mem_takeWhile (by simp))) (not_comment hslash)
  rename_i hquote
  split
  · rename_i hd
    obtain ⟨v, hv⟩ : ∃ v, IsLexeme .number (Segment.number c cs).1 v := isLexeme_number hd
    exact .lexeme hv (not_comment hslash)
  split
  · rename_i ha
    exact .lexeme (isLexeme_word ha fun d hd => of_mem_takeWhile hd) (not_comment hslash)
  · refine .unexpected ?_
    simpa [hquote] using hblank

theorem fits_first (c : Char) (cs : List Char) : (Segment.first c cs).1.Fits (Segment.first c cs).2 := by
  have hs := first_shaped c cs
  have happend := Segment.chars_first_append c cs
  have hlexeme : ∀ k w v, IsLexeme k w v → w <+: c :: cs → (∃ body, (Segment.first c cs).1 = .comment body) ∨
      ∃ k' w', (Segment.first c cs).1 = .lexeme k' w' ∧ w.length ≤ w'.length ∧ (w' = w → k' = k) := by
    rintro k w v h ⟨after, hw⟩
    exact first_of_isLexeme h hw.symm
  generalize Segment.first c cs = p at hs happend hlexeme
  cases hs with
  | blank hc => exact .blank hc
  | @comment rest hc hcs =>
    refine .comment (not_mem_takeWhile (by simp)) fun d hd => ?_
    have hnot := List.head?_dropWhile_not (· != '\n') rest
    rw [hd] at hnot
    simpa using hnot
  | lexeme hw hc =>
    dsimp only [Segment.chars] at happend
    rw [← happend] at hc hlexeme
    refine .lexeme hw hc fun k' w' v' h hp => ?_
    rcases hlexeme k' w' v' h hp with ⟨body, hbody⟩ | ⟨k'', w'', heq, hlen, -⟩
    · cases hbody
    · cases heq
      exact hlen
  | unexpected hc =>
    refine .unexpected hc fun k w v h hp => ?_
    rcases hlexeme k w v h hp with ⟨body, hbody⟩ | ⟨k', w', heq, -⟩
    · cases hbody
    · cases heq
  | unterminated hc hq => exact .unterminated hq

theorem IsLexeme.ne_nil (h : IsLexeme k w v) : w ≠ [] := by
  have hall : ∀ p ∈ signs, p.1 ≠ [] := by decide
  cases h with
  | sign hm => exact hall _ hm
  | whole hne _ => exact hne
  | keyword hm =>
    obtain ⟨-, a, as, heq, -⟩ := word_of_keyword hm
    simp [heq]
  | decimal | identifier | string => simp

theorem IsLexeme.kind_ne_eof (h : IsLexeme k w v) : k ≠ .eof := by
  have hsigns : ∀ p ∈ signs, p.2 ≠ .eof := by decide
  have hkeywords : ∀ p ∈ Kind.keywords, p.2 ≠ .eof := by decide
  cases h with
  | sign hm => exact hsigns _ hm
  | keyword hm => exact hkeywords _ hm
  | whole | decimal | identifier | string => decide

theorem IsLexeme.ne_string (h : IsLexeme k w .nil) : k ≠ .string := by
  have hsigns : ∀ p ∈ signs, p.2 ≠ .string := by decide
  have hkeywords : ∀ p ∈ Kind.keywords, p.2 ≠ .string := by decide
  cases h with
  | sign hm => exact hsigns _ hm
  | keyword hm => exact hkeywords _ hm
  | identifier => decide

def stops : List Char :=
  [' ', '\n', '"']

theorem IsLexeme.quoted_or (h : IsLexeme k w v) :
    (k = .string ∧ ∃ body, '"' ∉ body ∧ w = '"' :: body ++ ['"']) ∨ ∀ d ∈ stops, d ∉ w := by
  have hsigns : ∀ p ∈ signs, ∀ d ∈ stops, d ∉ p.1 := by simp [signs, stops]
  have hnot : ∀ {p : Char → Bool} {cs : List Char}, (∀ c ∈ cs, p c = true) → ∀ d, p d = false → d ∉ cs :=
    fun hcs d hd hm => Bool.false_ne_true (hd.symm.trans (hcs d hm))
  have hdigits : ∀ d ∈ stops, isDigit d = false := eq_false_of_all (by decide +kernel)
  have hletters : ∀ d ∈ stops, isAlphanumeric d = false := eq_false_of_all (by decide +kernel)
  have hword : ∀ {a : Char} {as : List Char}, isAlpha a = true → (∀ d ∈ as, isAlphanumeric d = true) →
      ∀ d ∈ stops, d ∉ a :: as := by
    intro a as ha has d hd
    have hall : ∀ d ∈ a :: as, isAlphanumeric d = true :=
      List.forall_mem_cons.mpr ⟨by rw [isAlphanumeric, ha, Bool.true_or], has⟩
    exact hnot hall d (hletters d hd)
  cases h with
  | sign hm => exact .inr (hsigns _ hm)
  | whole _ hds => exact .inr fun d hd => hnot hds d (hdigits d hd)
  | @decimal ds fs _ _ hds hfs =>
    refine .inr fun d hd hm => ?_
    have hdot : d ≠ '.' := by
      rintro rfl
      exact absurd hd (by decide)
    rcases List.mem_append.mp hm with hm | hm
    · exact hnot hds d (hdigits d hd) hm
    · exact hnot hfs d (hdigits d hd) ((List.mem_cons.mp hm).resolve_left hdot)
  | keyword hm =>
    obtain ⟨-, a, as, heq, ha, has⟩ := word_of_keyword hm
    rw [heq]
    exact .inr (hword ha has)
  | identifier ha has _ => exact .inr (hword ha has)
  | @string body hbody => exact .inl ⟨rfl, body, hbody, rfl⟩

theorem IsLexeme.newline_not_mem (h : IsLexeme k w v) : k = .string ∨ '\n' ∉ w :=
  h.quoted_or.imp And.left fun h => h '\n' (by decide)

theorem Segment.Fits.chars_ne_nil {s : Segment} (h : s.Fits after) : s.chars ≠ [] := by
  cases h with
  | lexeme hw _ _ => exact hw.ne_nil
  | blank | comment | unexpected | unterminated => simp [Segment.chars]

theorem first_of_fits {s : Segment} (h : s.Fits after) (hs : s.chars ++ after = c :: cs) :
    Segment.first c cs = (s, after) := by
  have hshape := first_shaped c cs
  have happend := Segment.chars_first_append c cs
  cases h with
  | blank hc =>
    cases hs
    simp only [List.mem_cons, List.not_mem_nil, or_false] at hc
    rcases hc with rfl | rfl | rfl | rfl <;> simp [Segment.first, singleKind?, equalSuffixKinds?]
  | @comment body _ hbody hafter =>
    cases hs
    have hall : ∀ d ∈ body, (d != '\n') = true := by
      intro d hd
      simp only [bne_iff_ne, ne_eq]
      rintro rfl
      exact hbody hd
    have hhead : ∀ d ∈ after.head?, (d != '\n') = false := fun d hd => by simp [hafter d hd]
    simp [Segment.first, singleKind?, equalSuffixKinds?, takeWhile_eq hall hhead, dropWhile_eq hall hhead]
  | @lexeme k w v _ hw hcomment hlong =>
    dsimp only [Segment.chars] at hs
    rw [hs] at hcomment hlong
    rcases first_of_isLexeme hw hs.symm with ⟨body, hbody⟩ | ⟨k', w', heq, hlen, hk⟩
    · generalize Segment.first c cs = p at hshape hbody
      cases hshape with
      | comment hc hcs =>
        subst hc hcs
        exact absurd (by simp) hcomment
      | blank | lexeme | unexpected | unterminated => cases hbody
    · generalize Segment.first c cs = p at hshape heq happend
      cases hshape with
      | lexeme hw' _ =>
        cases heq
        dsimp only [Segment.chars] at happend
        have hle := hlong _ _ _ hw' ⟨_, happend⟩
        obtain ⟨hww, rfl⟩ := List.append_inj (happend.trans hs.symm) (Nat.le_antisymm hle hlen)
        rw [hk hww, hww]
      | blank | comment | unexpected | unterminated => cases heq
  | @unexpected d _ hc hnone =>
    obtain ⟨rfl, rfl⟩ : d = c ∧ after = cs := by simpa [Segment.chars] using hs
    generalize Segment.first d after = p at hshape happend
    cases hshape with
    | blank hblank =>
      have hsub : [' ', '\r', '\t', '\n'] ⊆ [' ', '\r', '\t', '\n', '"'] := by simp
      exact absurd (hsub hblank) hc
    | comment hslash =>
      subst hslash
      exact absurd ⟨_, rfl⟩ (hnone .slash ['/'] .nil (.sign (by decide)))
    | lexeme hw _ => exact absurd ⟨_, happend⟩ (hnone _ _ _ hw)
    | unexpected => rfl
    | unterminated hquote _ => exact absurd (by simp [hquote]) hc
  | @unterminated body hq =>
    cases hs
    have hall : ∀ d ∈ body, (d != '"') = true := by
      intro d hd
      simp only [bne_iff_ne, ne_eq]
      rintro rfl
      exact hq hd
    have htake : (body ++ []).takeWhile (· != '"') = body := takeWhile_eq hall (by simp)
    have hdrop : (body ++ []).dropWhile (· != '"') = [] := dropWhile_eq hall (by simp)
    rw [List.append_nil] at htake hdrop
    simp [Segment.first, singleKind?, equalSuffixKinds?, htake, hdrop]

theorem segmentation_iff {ss : List Segment} : Segmentation cs ss ↔ ss = segments cs := by
  constructor
  · intro h
    induction h with
    | nil => rw [segments]
    -- the first segment is forced, and the others by induction
    | @cons s ss after hs _ ih =>
      obtain ⟨a, as, heq⟩ := List.exists_cons_of_ne_nil (List.append_ne_nil_of_left_ne_nil hs.chars_ne_nil after)
      rw [heq, segments, first_of_fits hs heq, ih]
  · rintro rfl
    fun_induction segments cs with
    | case1 => exact .nil
    | case2 c cs ih =>
      rw [← Segment.chars_first_append c cs]
      exact .cons (fits_first c cs) ih

theorem Segmentation.nil_of_unterminated {before behind : List Segment} {body : List Char}
    (h : Segmentation cs (before ++ .unterminated body :: behind)) : behind = [] := by
  induction before generalizing cs with
  | nil =>
    rw [List.nil_append] at h
    cases h with
    | cons hs htail =>
      cases hs
      rw [segmentation_iff.mp htail, segments]
  | cons s ss ih =>
    rw [List.cons_append] at h
    cases h with
    | cons _ htail => exact ih htail

theorem literal_of_isLexeme (h : IsLexeme k w v) : Segment.literal k w = v := by
  have hnil : ∀ {k : Kind} {w : List Char}, k ∉ [Kind.number, .string] → Segment.literal k w = .nil := by
    intro k w hk
    unfold Segment.literal
    split <;> first | rfl | simp at hk
  cases h with
  | sign hm =>
    have hall : ∀ p ∈ signs, p.2 ∉ [Kind.number, .string] := by decide
    exact hnil (hall _ hm)
  | whole _ hd =>
    have htake : (w ++ []).takeWhile isDigit = w := takeWhile_eq hd (by simp)
    have hdrop : (w ++ []).dropWhile isDigit = [] := dropWhile_eq hd (by simp)
    rw [List.append_nil] at htake hdrop
    rw [Segment.literal, Number.ofNumeral, htake, hdrop, List.drop_nil]
  | @decimal ds fs _ _ hd _ =>
    have hdot : ∀ d ∈ ('.' :: fs).head?, isDigit d = false := by simp [isDigit]
    rw [Segment.literal, Number.ofNumeral, takeWhile_eq hd hdot, dropWhile_eq hd hdot, List.drop_succ_cons, List.drop_zero]
  | keyword hm =>
    have hall : ∀ p ∈ Kind.keywords, p.2 ∉ [Kind.number, .string] := by decide
    exact hnil (hall _ hm)
  | identifier => exact hnil (by decide)
  | string => simp [Segment.literal]

theorem isLexeme_of_segmentation {ss : List Segment} (h : Segmentation cs ss) (hm : .lexeme k w ∈ ss) :
    IsLexeme k w (Segment.literal k w) := by
  induction h with
  | nil => cases hm
  | cons hs _ ih =>
    rcases List.mem_cons.mp hm with rfl | hm
    · cases hs with
      | lexeme hw _ _ => rwa [literal_of_isLexeme hw]
    · exact ih hm

end

end Lox
