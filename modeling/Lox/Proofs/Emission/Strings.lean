import Lox.Json.Printer
import Lox.Json.Reader

namespace Lox.Json

theorem ofUnit_toNat (c : Char) : ofUnit c.toNat = c := by
  have hc : c.toNat.isValidChar := c.valid
  rw [ofUnit, dif_pos hc]
  rfl

theorem readString_unit {a b c d : Char} {n : Nat} (h : unit? a b c d = some n) (hn : n < 0xD800) (before rest : List Char) :
    readString before ('\\' :: 'u' :: a :: b :: c :: d :: rest) = readString (ofUnit n :: before) rest := by
  have hpair : ∀ low, ofPair? n low = none := by
    intro low
    rw [ofPair?, if_neg (by omega)]
  rw [readString.eq_def]
  split
  case h_3 heq =>
    simp only [List.cons.injEq, true_and] at heq
    obtain ⟨rfl, rfl, rfl, rfl, rfl⟩ := heq
    rw [h]
    split
    · rename_i hhigh _
      cases hhigh
      rw [hpair]
    · rename_i hhigh _
      cases hhigh
      rfl
    · rename_i hhigh
      cases hhigh
  case h_4 heq =>
    simp only [List.cons.injEq, true_and] at heq
    obtain ⟨rfl, rfl, rfl, rfl, rfl⟩ := heq
    rw [h]
  all_goals grind

theorem readString_simple {c e : Char} (h : simpleEscape? c = some e) (before rest : List Char) :
    readString before ('\\' :: c :: rest) = readString (e :: before) rest := by
  have hc : c ≠ 'u' := by
    rintro rfl
    cases h
  rw [readString.eq_def]
  split <;> grind

theorem readString_raw {c : Char} (hquote : c ≠ '"') (hslash : c ≠ '\\') (hc : 0x20 ≤ c.toNat) (before rest : List Char) :
    readString before (c :: rest) = readString (c :: before) rest := by
  have hlow : ¬ c.toNat < 0x20 := Nat.not_lt.mpr hc
  rw [readString.eq_def]
  split <;> grind

def onlyUnit? : List Char → Option Nat
  | [a, b, c, d] => unit? a b c d
  | _ => none

theorem onlyUnit?_eq_some {cs : List Char} {n : Nat} (h : onlyUnit? cs = some n) :
    ∃ a b c d, cs = [a, b, c, d] ∧ unit? a b c d = some n := by
  unfold onlyUnit? at h
  split at h
  · exact ⟨_, _, _, _, rfl, h⟩
  · cases h

theorem unit_of_control : ∀ n < 0x20,
    onlyUnit? (List.replicate (4 - (Nat.toDigits 16 n).length) '0' ++ Nat.toDigits 16 n) = some n := by
  decide

theorem escaped_cases (c : Char) : (∃ d, escaped c = ['\\', d] ∧ simpleEscape? d = some c) ∨
    (∃ w x y z, escaped c = ['\\', 'u', w, x, y, z] ∧ unit? w x y z = some c.toNat ∧ c.toNat < 0x20) ∨
      escaped c = [c] ∧ c ≠ '"' ∧ c ≠ '\\' ∧ 0x20 ≤ c.toNat := by
  unfold escaped
  split
  · subst c
    exact .inl ⟨_, rfl, rfl⟩
  split
  · subst c
    exact .inl ⟨_, rfl, rfl⟩
  split
  · subst c
    exact .inl ⟨_, rfl, rfl⟩
  split
  · subst c
    exact .inl ⟨_, rfl, rfl⟩
  split
  · subst c
    exact .inl ⟨_, rfl, rfl⟩
  split
  · rename_i h
    rw [← Char.ofNat_toNat c, h]
    exact .inl ⟨_, rfl, rfl⟩
  split
  · rename_i h
    rw [← Char.ofNat_toNat c, h]
    exact .inl ⟨_, rfl, rfl⟩
  split
  · rename_i h
    obtain ⟨w, x, y, z, hdigits, hunit⟩ := onlyUnit?_eq_some (unit_of_control c.toNat h)
    dsimp only
    rw [List.append_assoc, hdigits]
    exact .inr (.inl ⟨w, x, y, z, rfl, hunit, h⟩)
  · exact .inr (.inr ⟨rfl, ‹_›, ‹_›, Nat.not_lt.mp ‹_›⟩)

theorem readString_escape (c : Char) (before rest : List Char) :
    readString before (escaped c ++ rest) = readString (c :: before) rest := by
  rcases escaped_cases c with ⟨d, hd, hc⟩ | ⟨w, x, y, z, hunit, hc, hlow⟩ | ⟨hraw, hquote, hslash, hc⟩
  · rw [hd]
    exact readString_simple hc before rest
  · rw [hunit]
    refine (readString_unit hc (by omega) before rest).trans ?_
    rw [ofUnit_toNat]
  · rw [hraw]
    exact readString_raw hquote hslash hc before rest

theorem readString_escaped (cs before tail : List Char) :
    readString before (cs.flatMap escaped ++ '"' :: tail) = .ok (String.ofList (before.reverse ++ cs), tail) := by
  induction cs generalizing before with
  | nil =>
    rw [List.flatMap_nil, List.nil_append, List.append_nil]
    rfl
  | cons c cs ih =>
    rw [List.flatMap_cons, List.append_assoc, readString_escape, ih, List.reverse_cons, List.append_assoc,
      List.singleton_append]

theorem not_mem_escaped (c : Char) : '\r' ∉ escaped c := by
  rcases escaped_cases c with ⟨d, hd, hc⟩ | ⟨w, x, y, z, hunit, hc, hlow⟩ | ⟨hraw, hquote, hslash, hc⟩
  · have hne : '\r' ≠ d := by
      rintro rfl
      cases hc
    simp [hd, hne]
  · have hhex : ∀ {d n}, hexValue? d = some n → '\r' ≠ d := by
      rintro _ n h rfl
      cases h
    simp only [unit?, Option.bind_eq_bind, Option.bind_eq_some_iff] at hc
    obtain ⟨_, hw, _, hx, _, hy, _, hz, -⟩ := hc
    simp [hunit, hhex hw, hhex hx, hhex hy, hhex hz]
  · have hne : '\r' ≠ c := by
      rintro rfl
      exact absurd hc (by decide)
    simp [hraw, hne]

end Lox.Json
