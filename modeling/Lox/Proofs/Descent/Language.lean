import Lox.Proofs.Descent.Acceptance
import Lox.Proofs.Descent.Productions
import Lox.Proofs.Unambiguous

namespace Lox

open Ascent (Phrase)
open Grammar Parse

namespace Grammar

theorem Program.unique {lenient : Bool} {ts : List Token} {e : Token} {ps qs : List Phrase}
    (h : Program lenient (ts ++ [e]) ps) (h' : Program lenient (ts ++ [e]) qs) : qs = ps := by
  obtain ⟨t, ht, h⟩ := h
  obtain ⟨u, hu, h'⟩ := h'
  obtain rfl : t = e := h.end_eq
  obtain rfl : u = t := h'.end_eq
  exact Phrase.block.inj (h.program_unique ht h')

end Grammar

/-- No tokens are prescribed two trees. -/
theorem Productions.Program.unique {ts : List Token} {e : Token} {ns ns' : List Node} (h : Program (ts ++ [e]) ns)
    (h' : Program (ts ++ [e]) ns') : ns' = ns := by
  obtain ⟨ps, hps, rfl⟩ := program_iff_phrases.mp h
  obtain ⟨qs, hqs, rfl⟩ := program_iff_phrases.mp h'
  rw [hps.unique hqs]

namespace Descent

/-- Reading does not reach the limit of nesting. -/
def Within (limit : Nat) (tokens : List Token) : Prop :=
  ¬ TooDeep true (program limit tokens)

instance (limit : Nat) (tokens : List Token) : Decidable (Within limit tokens) :=
  match h : program limit tokens with
  | .ok ns c =>
    if hc : ∀ x ∈ c.complaints.toList, x.problem ≠ .nestingTooDeep then
      isTrue (by simpa [Within, TooDeep, final, h] using hc)
    else isFalse (by simpa [Within, TooDeep, final, h] using hc)
  | .error e c =>
    if hc : e ≠ .tooDeep ∧ ∀ x ∈ c.complaints.toList, x.problem ≠ .nestingTooDeep then
      isTrue (by simpa [Within, TooDeep, final, h] using hc)
    else isFalse (by simpa [Within, TooDeep, final, h] using hc)

/-- Reading gets to the end without a complaint. -/
def Accepting (limit : Nat) (tokens : List Token) (ns : List Node) : Prop :=
  ∃ c, program limit tokens = .ok ns c ∧ c.complaints = #[]

instance (limit : Nat) (tokens : List Token) : Decidable (∃ ns, Accepting limit tokens ns) :=
  match h : program limit tokens with
  | .ok ns c =>
    if hc : c.complaints = #[] then isTrue ⟨ns, c, h, hc⟩
    else isFalse fun ⟨_, _, h', hc'⟩ => by
      rw [h] at h'
      cases h'
      exact hc hc'
  | .error _ _ => isFalse fun ⟨_, _, h', _⟩ => by
    rw [h] at h'
    cases h'

theorem Accepting.within {limit : Nat} {tokens : List Token} {ns : List Node} (h : Accepting limit tokens ns) :
    Within limit tokens := by
  obtain ⟨c, hc, hcs⟩ := h
  rintro (⟨d, hd⟩ | ⟨-, x, hx, -⟩)
  · rw [hc] at hd
    cases hd
  · rw [hc] at hx
    simp [final, hcs] at hx

theorem accepting_of_program {limit : Nat} {tokens : List Token} {ps : List Phrase} (hw : Within limit tokens)
    (h : Program false tokens ps) : Accepting limit tokens (Phrase.nodes ps) := by
  obtain ⟨⟨e, he, hd⟩, hps⟩ := Program.iff_lenient.mp h
  rcases program_of_derives hd he with hdeep | ⟨c, hc, -, cs, hcs, -, hm⟩
  · exact absurd hdeep hw
  · refine ⟨c, hc, ?_⟩
    rw [hps, List.map_eq_nil_iff] at hm
    subst hm
    exact Array.toList_eq_nil_iff.mp (by simpa [Cursor.start] using hcs)

theorem program_of_accepting {limit : Nat} {ts : List Token} {e : Token} {ns : List Node}
    (hts : ∀ t ∈ ts, t.kind ≠ .eof) (h : Accepting limit (ts ++ [e]) ns) :
    ∃ ps, Program false (ts ++ [e]) ps ∧ ns = Phrase.nodes ps := by
  obtain ⟨c, hc, hcs⟩ := h
  obtain ⟨ps, t, us, hd, ht, rfl, hm⟩ := derives_of_program hc (by simp [hcs])
  refine ⟨ps, Program.iff_lenient.mpr ⟨Program.of_derives hts hd ht, ?_⟩, rfl⟩
  simpa [hcs] using hm.symm

/-- Reading ends, without a complaint exactly if the tokens are a program of the grammar, and with the nodes that the
grammar prescribes for it, of which there is no choice. -/
theorem program_accepts_iff {limit : Nat} (hl : 0 < limit) {ts : List Token} {e : Token} (hts : ∀ t ∈ ts, t.kind ≠ .eof)
    (he : e.kind = .eof) (hw : Within limit (ts ++ [e])) : ∃ ns c, program limit (ts ++ [e]) = .ok ns c ∧
      (c.complaints = #[] ↔ ∃ tree, Productions.Program (ts ++ [e]) tree) ∧
      ∀ tree, Productions.Program (ts ++ [e]) tree → tree = ns := by
  obtain ⟨ns, c, hc⟩ := program_ends hl ⟨e, List.mem_append_right ts (List.mem_singleton.mpr rfl), he⟩
  have hderived : c.complaints = #[] → Productions.Program (ts ++ [e]) ns := by
    intro hcs
    obtain ⟨ps, hps, rfl⟩ := program_of_accepting hts ⟨c, hc, hcs⟩
    exact Productions.program_iff_phrases.mpr ⟨ps, hps, rfl⟩
  have haccepted : (∃ tree, Productions.Program (ts ++ [e]) tree) → c.complaints = #[] := by
    rintro ⟨tree, h⟩
    obtain ⟨ps, hps, -⟩ := Productions.program_iff_phrases.mp h
    obtain ⟨d, hd, hds⟩ := accepting_of_program hw hps
    cases hc.symm.trans hd
    exact hds
  exact ⟨ns, c, hc, ⟨fun hcs => ⟨ns, hderived hcs⟩, haccepted⟩, fun tree h => (hderived (haccepted ⟨tree, h⟩)).unique h⟩

theorem program_accepts_nested_if :
    let token (k : Kind) (s : String) : Token := ⟨k, .text s, .nil, 1⟩
    let name (s : String) : Token := token .identifier s
    let ts := [token .ifWord "if", token .leftParen "(", name "a", token .rightParen ")",
      token .ifWord "if", token .leftParen "(", name "b", token .rightParen ")",
      token .printWord "print", name "c", token .semicolon ";",
      token .elseWord "else", name "x", token .equal "=", name "y", token .semicolon ";"]
    let tokens := ts ++ [endToken 1]
    (∀ t ∈ ts, t.kind ≠ .eof) ∧ Within depthLimit tokens ∧
      ∃ ns, Productions.Program tokens ns ∧ ∀ tree, Productions.Program tokens tree → tree = ns := by
  intro token name ts tokens
  have hts : ∀ t ∈ ts, t.kind ≠ .eof := by decide
  have hacc : ∃ ns, Accepting depthLimit tokens ns := by decide +kernel
  have hw : Within depthLimit tokens := hacc.elim fun _ h => h.within
  obtain ⟨ns, c, hc, hiff, htree⟩ := program_accepts_iff (by decide : 0 < depthLimit) hts rfl hw
  obtain ⟨ns', d, hd, hds⟩ := hacc
  cases hc.symm.trans hd
  obtain ⟨tree, h⟩ := hiff.mp hds
  obtain rfl := htree tree h
  exact ⟨hts, hw, tree, h, htree⟩

end Descent

end Lox
