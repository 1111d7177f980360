import Lox.Json.Printer
import Lox.Json.Reader

namespace Lox.Json

open Text

def Boundary (tail : List Char) : Prop :=
  ∀ c ∈ tail.head?, isSpace c = true ∨ c ∈ [',', ']', '}']

theorem isSpace_iff {c : Char} : isSpace c = true ↔ c ∈ [' ', '\t', '\n', '\r'] := by
  simp [isSpace, or_assoc]

section

variable {p : Char → Bool} {tail : List Char}

theorem takeWhile_append_stop (h : ∀ c ∈ tail.head?, p c = false) (cs : List Char) :
    (cs ++ tail).takeWhile p = cs.takeWhile p := by
  induction cs with
  | nil =>
    cases tail with
    | nil => rfl
    | cons c cs => rw [List.nil_append, List.takeWhile_cons_of_neg (by simp [h c rfl]), List.takeWhile_nil]
  | cons c cs ih => rw [List.cons_append, List.takeWhile_cons, List.takeWhile_cons, ih]

theorem dropWhile_append_stop (h : ∀ c ∈ tail.head?, p c = false) (cs : List Char) :
    (cs ++ tail).dropWhile p = cs.dropWhile p ++ tail := by
  induction cs with
  | nil =>
    cases tail with
    | nil => rfl
    | cons c cs => rw [List.nil_append, List.dropWhile_cons_of_neg (by simp [h c rfl]), List.dropWhile_nil, List.nil_append]
  | cons c cs ih =>
    rw [List.cons_append, List.dropWhile_cons, List.dropWhile_cons, ih]
    split <;> rfl

end

namespace Boundary

variable {tail : List Char}

theorem nil : Boundary [] :=
  nofun

theorem space {c : Char} {cs : List Char} (h : isSpace c = true) : Boundary (c :: cs) := by
  rintro d ⟨⟩
  exact .inl h

theorem mark {c : Char} {cs : List Char} (h : c ∈ [',', ']', '}']) : Boundary (c :: cs) := by
  rintro d ⟨⟩
  exact .inr h

theorem head_eq_false (h : Boundary tail) {p : Char → Bool} (hp : [' ', '\t', '\n', '\r', ',', ']', '}'].any p = false) :
    ∀ c ∈ tail.head?, p c = false := by
  intro c hc
  apply Bool.eq_false_iff.mpr
  apply List.any_eq_false.mp hp
  rcases h c hc with h | h
  · exact List.mem_append_left [',', ']', '}'] (isSpace_iff.mp h)
  · exact List.mem_append_right [' ', '\t', '\n', '\r'] h

theorem head_not_digit (h : Boundary tail) : ∀ c ∈ tail.head?, isDigit c = false :=
  h.head_eq_false (by decide)

end Boundary

def signPart : List Char → Bool × List Char
  | '-' :: cs => (true, cs)
  | '+' :: cs => (false, cs)
  | cs => (false, cs)

theorem exponentPart?_cons (e : Char) (cs : List Char) : exponentPart? (e :: cs) =
    if e == 'e' || e == 'E' then signedExponent (signPart cs).1 (signPart cs).2 else none := by
  have hsigned : (match cs with
      | '-' :: ds => signedExponent true ds
      | '+' :: ds => signedExponent false ds
      | ds => signedExponent false ds) = signedExponent (signPart cs).1 (signPart cs).2 := by
    unfold signPart
    split <;> rfl
  rw [← hsigned]
  rfl

def leading (c : Char) (cs : List Char) : List Char :=
  if c == '0' then ['0'] else (c :: cs).takeWhile isDigit

def numeral (negative : Bool) (digits fraction after : List Char) : Value × List Char :=
  let size := Number.ofDigits digits
  let near (exponent : Int) := Number.nearest (Number.ofDigits (digits ++ fraction)) (exponent - fraction.length)
  match exponentPart? after with
  | some (exponent, rest) => (.number (if negative then -near exponent else near exponent), rest)
  | none =>
    if fraction.isEmpty then (.whole (if negative then -(size : Int) else size), after)
    else (.number (if negative then -near 0 else near 0), after)

theorem readNumber_cons {negative : Bool} {c : Char} (hc : isDigit c = true) (cs : List Char) :
    readNumber negative (c :: cs) =
      let p := fractionPart ((c :: cs).drop (leading c cs).length)
      .ok (numeral negative (leading c cs) p.1 p.2) := by
  rw [readNumber, leading]
  simp only [hc, Bool.not_true, Bool.false_eq_true, if_false]
  generalize fractionPart _ = p
  obtain ⟨fraction, after⟩ := p
  cases he : exponentPart? after with
  | none => by_cases hf : fraction.isEmpty = true <;> simp [numeral, he, hf]
  | some e => simp [numeral, he]

theorem readNumber_of_not_digit {negative : Bool} {c : Char} (hc : isDigit c = false) (cs : List Char) :
    readNumber negative (c :: cs) = .error .malformed := by
  simp [readNumber, hc]

theorem leading_begins (c : Char) (cs : List Char) : leading c cs <+: c :: cs := by
  unfold leading
  split
  · rename_i hzero
    rw [eq_of_beq hzero]
    exact ⟨cs, rfl⟩
  · exact List.takeWhile_prefix isDigit

theorem isDigit_leading (c : Char) (cs : List Char) : ∀ d ∈ leading c cs, isDigit d = true := by
  intro d hd
  unfold leading at hd
  split at hd
  · rw [List.mem_singleton.mp hd]
    rfl
  · exact List.all_eq_true.mp List.all_takeWhile d hd

section

variable {tail : List Char} (h : Boundary tail)

include h

theorem fractionPart_append (cs : List Char) :
    fractionPart (cs ++ tail) = ((fractionPart cs).1, (fractionPart cs).2 ++ tail) := by
  have hpoint : ∀ c ∈ tail.head?, (c == '.') = false := h.head_eq_false (by decide)
  have htail : fractionPart tail = ([], tail) := by
    unfold fractionPart
    split
    · cases hpoint '.' rfl
    · rfl
  by_cases hdot : ∃ ds, cs = '.' :: ds
  · obtain ⟨ds, rfl⟩ := hdot
    simp only [fractionPart, List.cons_append, takeWhile_append_stop h.head_not_digit,
      dropWhile_append_stop h.head_not_digit]
    split <;> rfl
  · cases cs with
    | nil => exact htail
    | cons c cs =>
      have hc : c ≠ '.' := fun he => hdot ⟨cs, by rw [he]⟩
      rw [List.cons_append, fractionPart.eq_def, fractionPart.eq_def]
      split
      · exact absurd (List.cons.inj ‹_›).1 hc
      · split
        · exact absurd (List.cons.inj ‹_›).1 hc
        · rfl

theorem signPart_append (cs : List Char) : signPart (cs ++ tail) = ((signPart cs).1, (signPart cs).2 ++ tail) := by
  have hsign : ∀ c ∈ tail.head?, (c == '-' || c == '+') = false := h.head_eq_false (by decide)
  cases cs with
  | nil =>
    rw [List.nil_append, signPart.eq_def]
    split
    · cases hsign '-' rfl
    · cases hsign '+' rfl
    · rfl
  | cons c cs =>
    by_cases hminus : c = '-'
    · subst hminus
      rfl
    · by_cases hplus : c = '+'
      · subst hplus
        rfl
      · simp [signPart, hminus, hplus]

theorem signedExponent_append (negative : Bool) (cs : List Char) :
    signedExponent negative (cs ++ tail) = (signedExponent negative cs).map fun p => (p.1, p.2 ++ tail) := by
  simp only [signedExponent, takeWhile_append_stop h.head_not_digit, dropWhile_append_stop h.head_not_digit]
  split <;> rfl

theorem exponentPart?_append (cs : List Char) :
    exponentPart? (cs ++ tail) = (exponentPart? cs).map fun p => (p.1, p.2 ++ tail) := by
  cases cs with
  | nil =>
    cases tail with
    | nil => rfl
    | cons c tail =>
      have hmark : (c == 'e' || c == 'E') = false := h.head_eq_false (p := fun c => c == 'e' || c == 'E') (by decide) c rfl
      rw [List.nil_append, exponentPart?_cons, if_neg (ne_true_of_eq_false hmark)]
      rfl
  | cons e cs =>
    rw [List.cons_append, exponentPart?_cons, exponentPart?_cons]
    split
    · rw [signPart_append h, signedExponent_append h]
    · rfl

theorem numeral_append (negative : Bool) (digits fraction after : List Char) :
    numeral negative digits fraction (after ++ tail) =
      ((numeral negative digits fraction after).1, (numeral negative digits fraction after).2 ++ tail) := by
  simp only [numeral, exponentPart?_append h]
  cases exponentPart? after with
  | none => by_cases hf : fraction.isEmpty = true <;> simp [hf]
  | some e => rfl

theorem readNumber_append {negative : Bool} {cs rest : List Char} {v : Value}
    (hread : readNumber negative cs = .ok (v, rest)) : readNumber negative (cs ++ tail) = .ok (v, rest ++ tail) := by
  cases cs with
  | nil => cases hread
  | cons c cs =>
    by_cases hc : isDigit c = true
    · have hleading : leading c (cs ++ tail) = leading c cs := by
        rw [leading, leading, ← List.cons_append, takeWhile_append_stop h.head_not_digit]
      rw [readNumber_cons hc] at hread
      rw [List.cons_append, readNumber_cons hc, hleading, ← List.cons_append,
        List.drop_append_of_le_length (leading_begins c cs).length_le, fractionPart_append h]
      simp only [numeral_append h, Except.ok.injEq, Prod.ext_iff] at hread ⊢
      exact ⟨hread.1, by rw [hread.2]⟩
    · rw [readNumber_of_not_digit (Bool.eq_false_iff.mpr hc)] at hread
      cases hread

end

theorem fractionPart_suffix (cs : List Char) : (fractionPart cs).2 <:+ cs := by
  unfold fractionPart
  split
  · split
    · exact List.suffix_rfl
    · exact (List.dropWhile_suffix _).trans (List.suffix_cons _ _)
  · exact List.suffix_rfl

theorem signPart_suffix (cs : List Char) : (signPart cs).2 <:+ cs := by
  unfold signPart
  split
  · exact List.suffix_cons _ _
  · exact List.suffix_cons _ _
  · exact List.suffix_rfl

theorem exponentPart?_suffix {cs rest : List Char} {e : Int} (h : exponentPart? cs = some (e, rest)) : rest <:+ cs := by
  cases cs with
  | nil => cases h
  | cons c cs =>
    rw [exponentPart?_cons] at h
    split at h
    · unfold signedExponent at h
      split at h
      · cases h
      · cases h
        exact ((List.dropWhile_suffix _).trans (signPart_suffix cs)).trans (List.suffix_cons _ _)
    · cases h

theorem numeral_suffix (negative : Bool) (digits fraction after : List Char) :
    (numeral negative digits fraction after).2 <:+ after := by
  unfold numeral
  cases h : exponentPart? after with
  | none => by_cases hf : fraction.isEmpty = true <;> simp [hf]
  | some e => exact exponentPart?_suffix h

theorem eq_nil_of_fractionPart {cs : List Char} (h : fractionPart cs = ([], [])) : cs = [] := by
  unfold fractionPart at h
  split at h
  · split at h
    · cases h
    · rename_i hne
      exact absurd (Prod.ext_iff.mp h).1 hne
  · exact (Prod.ext_iff.mp h).2

theorem readNumber_cases {negative : Bool} {cs rest : List Char} {v : Value}
    (h : readNumber negative cs = .ok (v, rest)) : ∃ digits part, (∀ d ∈ digits, isDigit d = true) ∧
      cs = digits ++ part ∧ numeral negative digits (fractionPart part).1 (fractionPart part).2 = (v, rest) := by
  cases cs with
  | nil => cases h
  | cons c cs =>
    by_cases hc : isDigit c = true
    · rw [readNumber_cons hc] at h
      refine ⟨leading c cs, (c :: cs).drop (leading c cs).length, isDigit_leading c cs, ?_, Except.ok.inj h⟩
      obtain ⟨ds, hds⟩ := leading_begins c cs
      rw [← hds, List.drop_left]
    · rw [readNumber_of_not_digit (Bool.eq_false_iff.mpr hc)] at h
      cases h

theorem readNumber_suffix {negative : Bool} {cs rest : List Char} {v : Value}
    (h : readNumber negative cs = .ok (v, rest)) : rest <:+ cs := by
  obtain ⟨digits, part, -, rfl, hnumeral⟩ := readNumber_cases h
  have hrest := numeral_suffix negative digits (fractionPart part).1 (fractionPart part).2
  rw [hnumeral] at hrest
  exact (hrest.trans (fractionPart_suffix part)).trans (List.suffix_append digits part)

theorem isDigit_of_whole {negative : Bool} {cs : List Char} {i : Int}
    (h : readNumber negative cs = .ok (.whole i, [])) : ∀ d ∈ cs, isDigit d = true := by
  obtain ⟨digits, part, hdigits, rfl, hnumeral⟩ := readNumber_cases h
  have hpart : part = [] := by
    apply eq_nil_of_fractionPart
    generalize fractionPart part = p at hnumeral
    obtain ⟨fraction, after⟩ := p
    unfold numeral at hnumeral
    cases he : exponentPart? after with
    | some e => simp [he] at hnumeral
    | none => by_cases hf : fraction.isEmpty = true <;> simp_all
  rwa [hpart, List.append_nil]

def readSigned : Reader Value
  | '-' :: cs => readNumber true cs
  | cs => readNumber false cs

theorem readSigned_of_ne {c : Char} (hc : c ≠ '-') (cs : List Char) :
    readSigned (c :: cs) = readNumber false (c :: cs) := by
  unfold readSigned
  split
  · exact absurd (List.cons.inj ‹_›).1 hc
  · rfl

theorem readSigned_cases {cs rest : List Char} {v : Value} (h : readSigned cs = .ok (v, rest)) :
    (∃ ds, cs = '-' :: ds ∧ readNumber true ds = .ok (v, rest)) ∨
      ∃ c ds, cs = c :: ds ∧ c ≠ '-' ∧ readNumber false (c :: ds) = .ok (v, rest) := by
  cases cs with
  | nil => cases h
  | cons c cs =>
    by_cases hc : c = '-'
    · subst hc
      exact .inl ⟨cs, rfl, h⟩
    · rw [readSigned_of_ne hc] at h
      exact .inr ⟨c, cs, rfl, hc, h⟩

theorem readSigned_append {tail : List Char} (htail : Boundary tail) {cs rest : List Char} {v : Value}
    (h : readSigned cs = .ok (v, rest)) : readSigned (cs ++ tail) = .ok (v, rest ++ tail) := by
  rcases readSigned_cases h with ⟨ds, rfl, hread⟩ | ⟨c, ds, rfl, hc, hread⟩
  · exact readNumber_append htail hread
  · rw [List.cons_append, readSigned_of_ne hc]
    exact readNumber_append htail hread

theorem readSigned_suffix {cs rest : List Char} {v : Value} (h : readSigned cs = .ok (v, rest)) : rest <:+ cs := by
  rcases readSigned_cases h with ⟨ds, rfl, hread⟩ | ⟨c, ds, rfl, -, hread⟩
  · exact (readNumber_suffix hread).trans (List.suffix_cons _ _)
  · exact readNumber_suffix hread

def isNumeral (c : Char) : Bool :=
  isDigit c || c == '-' || c == '+' || c == '.' || c == 'e'

theorem readValue_numeral {size depth : Nat} {cs tail : List Char} (htail : Boundary tail) (hne : cs ≠ [])
    (hcs : ∀ c ∈ cs, isNumeral c = true) : readValue size (depth + 1) (cs ++ tail) = readSigned (cs ++ tail) := by
  obtain ⟨c, ds, rfl⟩ := List.exists_cons_of_ne_nil hne
  have hother : ∀ d ∈ ['"', '{', '[', 'n', 't', 'f', 'N', 'I'], c ≠ d := by
    rintro d hd rfl
    have hany : ['"', '{', '[', 'n', 't', 'f', 'N', 'I'].any isNumeral = true :=
      List.any_eq_true.mpr ⟨c, hd, hcs c List.mem_cons_self⟩
    exact absurd hany (by decide)
  have hnext : ∀ d ∈ (ds ++ tail).head?, d ≠ 'I' := by
    cases ds with
    | nil =>
      have hmark : ∀ d ∈ tail.head?, (d == 'I') = false := htail.head_eq_false (by decide)
      exact fun d hd => ne_of_beq_false (hmark d hd)
    | cons d ds =>
      rintro _ ⟨⟩ rfl
      exact absurd (hcs 'I' (by simp)) (by decide)
  rw [List.cons_append, readValue.eq_def]
  generalize ds ++ tail = rest at *
  dsimp only
  split
  case h_9 heq =>
    obtain ⟨-, rfl⟩ := List.cons.inj heq
    exact absurd rfl (hnext 'I' rfl)
  case h_10 heq =>
    rw [heq]
    rfl
  case h_11 hminus =>
    have hc : c ≠ '-' := fun he => hminus rest (by rw [he])
    exact (readSigned_of_ne hc rest).symm
  all_goals exact absurd (List.cons.inj ‹_›).1 (hother _ (by decide))

end Lox.Json
