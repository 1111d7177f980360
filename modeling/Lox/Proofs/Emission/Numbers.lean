import Lox.Cursor
import Lox.Proofs.Emission.Numerals

namespace Lox

open Json Text

def Json.Numeric (s : String) : Prop :=
  ∀ c ∈ s.toList, isNumeral c = true

namespace Json

instance (s : String) : Decidable (Numeric s) :=
  decidable_of_iff (s.toList.all isNumeral = true) List.all_eq_true

variable {s t : String}

theorem numeric_append : Numeric (s ++ t) ↔ Numeric s ∧ Numeric t := by
  simp only [Numeric, String.toList_append, List.forall_mem_append]

theorem numeric_of_digits {ds : List Char} (h : ∀ c ∈ ds, isDigit c = true) : Numeric (String.ofList ds) := by
  intro c hc
  rw [String.toList_ofList] at hc
  simp [isNumeral, h c hc]

end Json

namespace Number

def isFinite (x : Float) : Bool :=
  match anatomy x with
  | .finite _ => true
  | _ => false

theorem eq_of_toBits {x y : Float} (h : x.toBits.toNat = y.toBits.toNat) : x = y := by
  obtain ⟨⟨a, ha⟩⟩ := x
  obtain ⟨⟨b, hb⟩⟩ := y
  obtain rfl : a = b := UInt64.toNat_inj.mp h
  rfl

open Float.Model in
theorem eq_of_nan {x : Float} (h : anatomy x = .nan) : x = Float.ofBits 0x7FF8000000000000 := by
  have hbits : x.toBits.toNat / 2 ^ 52 % 2048 = 2047 ∧ x.toBits.toNat % 2 ^ 52 ≠ 0 := by
    unfold anatomy at h
    dsimp only at h
    split at h
    · split at h
      · cases h
      · exact ⟨‹_›, ‹_›⟩
    · split at h <;> cases h
  have hexponent : @UnpackedFloat.unpackExponent Format.binary64 x.toBits.toBitVec = -1#11 := by
    apply BitVec.eq_of_toNat_eq
    simpa [UnpackedFloat.unpackExponent, BitVec.extractLsb, Nat.shiftRight_eq_div_pow] using hbits.1
  have hmantissa : @UnpackedFloat.unpackMantissa Format.binary64 x.toBits.toBitVec ≠ 0#52 := by
    intro he
    apply hbits.2
    simpa [UnpackedFloat.unpackMantissa, BitVec.extractLsb] using congrArg BitVec.toNat he
  have hnan : x.toBits.toBitVec = UnpackedFloat.packedNaN Format.binary64 :=
    x.toModel.valid.eq_packedNaN hexponent hmantissa
  apply eq_of_toBits
  rw [← UInt64.toNat_toBitVec, hnan]
  decide +kernel

theorem eq_of_infinite {x : Float} {negative : Bool} (h : anatomy x = .infinite negative) :
    x = if negative then -infinity else infinity := by
  have hbits : x.toBits.toNat / 2 ^ 52 % 2048 = 2047 ∧ x.toBits.toNat % 2 ^ 52 = 0 ∧
      (x.toBits.toNat / 2 ^ 63 == 1) = negative := by
    unfold anatomy at h
    dsimp only at h
    split at h
    · split at h
      · cases h
        exact ⟨‹_›, ‹_›, rfl⟩
      · cases h
    · split at h <;> cases h
  obtain ⟨hexponent, hfraction, hsign⟩ := hbits
  have hlt := x.toBits.toNat_lt
  apply eq_of_toBits
  cases negative with
  | true =>
    have hb : (-infinity).toBits.toNat = 0xFFF0000000000000 := by decide +kernel
    rw [if_pos rfl, hb]
    rw [beq_iff_eq] at hsign
    omega
  | false =>
    have hb : infinity.toBits.toNat = 0x7FF0000000000000 := by decide +kernel
    rw [if_neg nofun, hb]
    rw [beq_eq_false_iff_ne] at hsign
    omega

theorem isDigit_toDigits (n : Nat) : ∀ c ∈ Nat.toDigits 10 n, isDigit c = true := by
  intro c hc
  have h := Nat.isDigit_of_mem_toDigits (by decide) (by decide) hc
  simpa [isDigit, Char.isDigit, Char.le_def] using h

theorem isDigit_significant (n : Nat) : ∀ c ∈ significant n, isDigit c = true := by
  intro c hc
  apply isDigit_toDigits n
  have hreverse := (List.dropWhile_suffix (· == '0')).subset (List.mem_reverse.mp hc)
  exact List.mem_reverse.mp hreverse

theorem numeric_zeros (n : Nat) : Numeric (zeros n) := by
  apply numeric_of_digits
  intro c hc
  rw [List.eq_of_mem_replicate hc]
  rfl

theorem numeric_toString (n : Nat) : Numeric (toString n) := by
  rw [Nat.toString_eq_repr, Nat.repr_eq_ofList_toDigits]
  exact numeric_of_digits (isDigit_toDigits n)

variable (l : Layout)

theorem numeric_exponentText (e : Int) : Numeric (l.exponentText e) := by
  have hsign : Numeric (if e < 0 then "e-" else "e+") := by
    split <;> decide
  exact numeric_append.mpr ⟨numeric_append.mpr ⟨hsign, numeric_zeros _⟩, numeric_toString _⟩

theorem mem_exponentText (e : Int) : 'e' ∈ (l.exponentText e).toList := by
  have hsign : 'e' ∈ (if e < 0 then "e-" else "e+").toList := by
    split <;> decide
  simp only [Layout.exponentText, String.toList_append, List.append_assoc]
  exact List.mem_append_left _ hsign

theorem numeric_decimal (d : Decimal) : Numeric (l.decimal d) := by
  have htake : ∀ n, Numeric (String.ofList ((significant d.coefficient).take n)) :=
    fun n => numeric_of_digits fun c hc => isDigit_significant _ c (List.mem_of_mem_take hc)
  have hdrop : ∀ n, Numeric (String.ofList ((significant d.coefficient).drop n)) :=
    fun n => numeric_of_digits fun c hc => isDigit_significant _ c (List.mem_of_mem_drop hc)
  have hall := numeric_of_digits (isDigit_significant d.coefficient)
  have hpoint : Numeric "." := by decide
  have hzero : Numeric ".0" ∧ Numeric "0." := by decide
  unfold Layout.decimal
  dsimp only
  split
  · split
    · exact numeric_append.mpr ⟨numeric_append.mpr ⟨hzero.2, numeric_zeros _⟩, hall⟩
    · split
      · exact numeric_append.mpr ⟨numeric_append.mpr ⟨hall, numeric_zeros _⟩, hzero.1⟩
      · exact numeric_append.mpr ⟨numeric_append.mpr ⟨htake _, hpoint⟩, hdrop _⟩
  · refine numeric_append.mpr ⟨numeric_append.mpr ⟨htake 1, ?_⟩, numeric_exponentText l _⟩
    split
    · exact nofun
    · exact numeric_append.mpr ⟨hpoint, hdrop 1⟩

theorem marked_decimal (d : Decimal) : '.' ∈ (l.decimal d).toList ∨ 'e' ∈ (l.decimal d).toList := by
  unfold Layout.decimal
  dsimp only
  split
  · left
    split
    · simp
    · split <;> simp
  · right
    rw [String.toList_append]
    exact List.mem_append_right _ (mem_exponentText l _)

theorem numeric_write {x : Float} {d : Dyadic} (h : anatomy x = .finite d) : Numeric (l.write x) := by
  have hsize : Numeric (if d.mantissa = 0 then "0.0" else l.decimal (shortest d)) := by
    split
    · decide
    · exact numeric_decimal l _
  have hminus : Numeric "-" := by decide
  rw [Layout.write, h]
  dsimp only
  split
  · exact numeric_append.mpr ⟨hminus, hsize⟩
  · exact hsize

theorem marked_write {x : Float} {d : Dyadic} (h : anatomy x = .finite d) :
    '.' ∈ (l.write x).toList ∨ 'e' ∈ (l.write x).toList := by
  have hsize : ∀ s, s = (if d.mantissa = 0 then "0.0" else l.decimal (shortest d)) → '.' ∈ s.toList ∨ 'e' ∈ s.toList := by
    rintro s rfl
    split
    · decide
    · exact marked_decimal l _
  rw [Layout.write, h]
  dsimp only
  split
  · rw [String.toList_append]
    exact (hsize _ rfl).imp (List.mem_append_right _) (List.mem_append_right _)
  · exact hsize _ rfl

end Number

namespace Json

theorem skipSpace_of_head {cs : List Char} (h : ∀ c ∈ cs.head?, isSpace c = false) : skipSpace cs = cs := by
  cases cs with
  | nil => rfl
  | cons c cs => rw [skipSpace, List.dropWhile_cons_of_neg (by simp [h c rfl])]

theorem isSpace_of_isNumeral {c : Char} (h : isNumeral c = true) : isSpace c = false := by
  apply Bool.eq_false_iff.mpr
  intro hc
  have hany : [' ', '\t', '\n', '\r'].any isNumeral = true := List.any_eq_true.mpr ⟨c, isSpace_iff.mp hc, h⟩
  exact absurd hany (by decide)

theorem read_eq_ok {text : String} {v : Value} (h : read text = .ok v) : ∃ rest,
    readValue text.toList.length depthLimit (skipSpace text.toList) = .ok (v, rest) ∧ skipSpace rest = [] := by
  obtain ⟨⟨w, rest⟩, hv, h⟩ := except_bind_eq_ok.mp h
  dsimp only at h
  split at h
  · cases h
    exact ⟨rest, hv, List.isEmpty_iff.mp ‹_›⟩
  · cases h

def reread? (x : Float) : Option Float :=
  match read (write compact (.number x)) with
  | .ok (.number y) => some y
  | .ok (.whole i) => Number.ofInt? i
  | _ => none

theorem readSigned_of_read {text : String} {v : Value} (hnumeric : Numeric text) (h : read text = .ok v) :
    readSigned text.toList = .ok (v, []) := by
  obtain ⟨rest, hread, hrest⟩ := read_eq_ok h
  have hskip : skipSpace text.toList = text.toList := by
    apply skipSpace_of_head
    intro c hc
    exact isSpace_of_isNumeral (hnumeric c (List.mem_of_mem_head? hc))
  have hne : text.toList ≠ [] := by
    intro he
    rw [hskip, he] at hread
    cases hread
  rw [hskip, ← List.append_nil text.toList, depthLimit, readValue_numeral .nil hne hnumeric, List.append_nil] at hread
  have hself : skipSpace rest = rest := by
    apply skipSpace_of_head
    intro c hc
    exact isSpace_of_isNumeral (hnumeric c ((readSigned_suffix hread).subset (List.mem_of_mem_head? hc)))
  rwa [← hself, hrest] at hread

theorem not_marked_of_whole {cs : List Char} {i : Int} (h : readSigned cs = .ok (.whole i, [])) : '.' ∉ cs ∧ 'e' ∉ cs := by
  have hdigits : ∀ {ds : List Char}, (∀ d ∈ ds, isDigit d = true) → '.' ∉ ds ∧ 'e' ∉ ds := by
    intro ds hds
    exact ⟨fun hm => absurd (hds _ hm) (by decide), fun hm => absurd (hds _ hm) (by decide)⟩
  rcases readSigned_cases h with ⟨ds, rfl, hread⟩ | ⟨c, ds, rfl, -, hread⟩
  · simpa using hdigits (isDigit_of_whole hread)
  · exact hdigits (isDigit_of_whole hread)

variable {tail : List Char} (htail : Boundary tail) (size depth : Nat)

include htail

theorem readValue_number {x : Float} (h : Number.isFinite x = true → reread? x = some x) :
    readValue size (depth + 1) ((Number.json.write x).toList ++ tail) = .ok (.number x, tail) := by
  cases hx : Number.anatomy x with
  | nan =>
    rw [Number.Layout.write, hx, Number.eq_of_nan hx]
    rfl
  | infinite negative =>
    rw [Number.Layout.write, hx, Number.eq_of_infinite hx]
    cases negative <;> rfl
  | finite d =>
    have hnumeric := Number.numeric_write Number.json hx
    have hread : readSigned (Number.json.write x).toList = .ok (.number x, []) := by
      have hx' := h (by rw [Number.isFinite, hx])
      unfold reread? at hx'
      split at hx'
      · cases hx'
        exact readSigned_of_read hnumeric ‹_›
      · have hwhole := not_marked_of_whole (readSigned_of_read hnumeric ‹_›)
        exact absurd (Number.marked_write Number.json hx) (by simpa using hwhole)
      · cases hx'
    have hne : (Number.json.write x).toList ≠ [] := by
      intro he
      rw [he] at hread
      cases hread
    rw [readValue_numeral htail hne hnumeric]
    exact readSigned_append htail hread

omit htail

theorem eq_nil_of_toDigits_zero {n : Nat} {cs : List Char} (h : Nat.toDigits 10 n = '0' :: cs) : cs = [] := by
  induction n using Nat.strongRecOn generalizing cs with
  | ind n ih =>
    rw [Nat.toDigits_eq_if (by decide)] at h
    split at h
    · exact (List.cons.inj h).2.symm
    · rename_i hn
      obtain ⟨c, ds, hds⟩ := List.exists_cons_of_ne_nil (Nat.toDigits_ne_nil (n := n / 10) (b := 10))
      rw [hds, List.cons_append] at h
      obtain ⟨rfl, rfl⟩ := List.cons.inj h
      have hzero := ih (n / 10) (by omega) hds
      rw [hzero] at hds
      have hdiv : n / 10 = 0 := by
        rw [← Nat.ofDigitChars_ten_toDigits (n := n / 10), hds]
        rfl
      omega

theorem ofDigits_toDigits (n : Nat) : Number.ofDigits (Nat.toDigits 10 n) = n := by
  rw [Number.ofDigits, ← Nat.ofDigitChars_eq_foldl, Nat.ofDigitChars_ten_toDigits]

theorem readNumber_toDigits (negative : Bool) (n : Nat) :
    readNumber negative (Nat.toDigits 10 n) = .ok (.whole (if negative then -(n : Int) else n), []) := by
  obtain ⟨c, cs, hcs⟩ := List.exists_cons_of_ne_nil (Nat.toDigits_ne_nil (n := n) (b := 10))
  have hdigits := Number.isDigit_toDigits n
  rw [hcs] at hdigits
  have hleading : leading c cs = c :: cs := by
    unfold leading
    split
    · rename_i hc
      obtain rfl := eq_of_beq hc
      rw [eq_nil_of_toDigits_zero hcs]
    · have hall : (c :: cs ++ []).takeWhile isDigit = c :: cs ++ [] := List.takeWhile_append_of_pos hdigits
      simpa using hall
  rw [hcs, readNumber_cons (hdigits c List.mem_cons_self), hleading, List.drop_length]
  simp [numeral, fractionPart, exponentPart?, ← hcs, ofDigits_toDigits]

theorem readSigned_toString (i : Int) : readSigned (toString i).toList = .ok (.whole i, []) := by
  have hdigits : ∀ n : Nat, (toString n).toList = Nat.toDigits 10 n := by
    intro n
    rw [Nat.toString_eq_repr, Nat.repr_eq_ofList_toDigits, String.toList_ofList]
  cases i with
  | ofNat n =>
    have hread := readNumber_toDigits false n
    obtain ⟨c, cs, hcs⟩ := List.exists_cons_of_ne_nil (Nat.toDigits_ne_nil (n := n) (b := 10))
    have hc : isDigit c = true := Number.isDigit_toDigits n c (by rw [hcs]; exact List.mem_cons_self)
    have hminus : c ≠ '-' := by
      rintro rfl
      cases hc
    change readSigned (toString n).toList = _
    rw [hdigits, hcs, readSigned_of_ne hminus, ← hcs, hread]
    rfl
  | negSucc n =>
    have htext : (toString (Int.negSucc n)).toList = '-' :: (toString (n + 1)).toList :=
      String.toList_append
    rw [htext, hdigits, readSigned, readNumber_toDigits]
    rfl

theorem numeric_toString_int (i : Int) : Numeric (toString i) := by
  have hminus : Numeric "-" := by decide
  cases i with
  | ofNat n => exact Number.numeric_toString n
  | negSucc n => exact numeric_append.mpr ⟨hminus, Number.numeric_toString (n + 1)⟩

theorem toString_ne_nil (i : Int) : (toString i).toList ≠ [] := by
  intro he
  have hread := readSigned_toString i
  rw [he] at hread
  cases hread

include htail in
theorem readValue_whole (i : Int) :
    readValue size (depth + 1) ((toString i).toList ++ tail) = .ok (.whole i, tail) := by
  rw [readValue_numeral htail (toString_ne_nil i) (numeric_toString_int i)]
  exact readSigned_append htail (readSigned_toString i)

end Json

end Lox
