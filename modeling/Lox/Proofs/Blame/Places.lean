import Lox.Proofs.Agreement
import Lox.Proofs.Blame.Rules
import Lox.Proofs.Blame.Texts

namespace Lox

open Ascent Parse

namespace Ascent

theorem clean_of_scan {source : String} (h : (scan source).diagnostics = []) : Clean source.toList := by
  have hall := faultless_iff.mpr h
  exact fun s hs => Option.isNone_iff_eq_none.mp (List.all_eq_true.mp hall s hs)

theorem lexeme_of_reserved {line : Nat} {cs : List Char} {t : Token} {w : String} (ht : t ∈ allTokens line cs)
    (hw : w ∈ reserved) (hk : t.kind = Kind.ofWord w) : t.lexeme = .text w := by
  have hkeywords : ∀ p ∈ Kind.keywords, ∀ w ∈ reserved, p.2 = Kind.ofWord w → p.1 = w := by decide
  have hsigns : ∀ p ∈ signs, ∀ w ∈ reserved, p.2 ≠ Kind.ofWord w := by decide
  have hothers : ∀ k ∈ [Kind.number, .identifier, .string, .eof], ∀ w ∈ reserved, k ≠ Kind.ofWord w := by decide
  have hseg : Segmentation cs (segments cs) := segmentation_iff.mpr rfl
  rcases List.mem_append.mp ht with ht | ht
  · obtain ⟨⟨n, s⟩, hs, ht⟩ := List.mem_filterMap.mp ht
    cases s with
    | lexeme k cs =>
      cases ht
      have hlexeme := isLexeme_of_segmentation hseg (Segment.mem_of_mem_numbered hs)
      generalize Segment.literal k cs = v at hlexeme
      cases hlexeme with
      | sign hm => exact absurd hk (hsigns _ hm w hw)
      | keyword hm =>
        rw [← hkeywords _ hm w hw hk, String.ofList_toList]
      | whole | decimal | identifier | string => exact absurd hk (hothers _ (by simp) w hw)
    | blank | comment | unexpected | unterminated => cases ht
  · obtain rfl := List.mem_singleton.mp ht
    exact absurd hk (hothers .eof (by decide) w hw)

end Ascent

namespace Reading

/-- The first complaint about the tokens of a text that is about no target of an assignment. -/
def firstFault? (source : String) : Option Complaint :=
  (final (Descent.program Descent.depthLimit (scan source).tokens)).complaints.toList.find?
    (·.problem ≠ .invalidAssignmentTarget)

variable {source : String}

theorem exists_located (hclean : (scan source).diagnostics = []) (hdeep : ¬ (descent source).Deep) {d : Diagnostic}
    (hd : (descent source).diagnostics.find? (·.problem ≠ .invalidAssignmentTarget) = some d) :
    ∃ x f, firstFault? source = some x ∧ x.diagnostic = d ∧ (scan source).tokens[x.index]? = some x.token ∧
      phrases source = .error f ∧ Located (f.diagnostic source) x.token := by
  obtain ⟨ns, c, hc, heq⟩ := exists_descent source
  rw [heq, hclean, List.nil_append, List.find?_map, Option.map_eq_some_iff] at hd
  obtain ⟨x, hx, hxd⟩ := hd
  have hx : c.complaints.toList.find? (·.problem ≠ .invalidAssignmentTarget) = some x := hx
  have hfirst : firstFault? source = some x := by
    rw [firstFault?, hc]
    exact hx
  have hnotDeep : ∀ y ∈ c.complaints.toList, y.problem ≠ .nestingTooDeep := by
    intro y hy hp
    refine hdeep ⟨y.diagnostic, ?_, hp⟩
    rw [heq]
    exact List.mem_append_right _ (List.mem_map_of_mem hy)
  have hfault : ∃ y ∈ c.complaints.toList, y.problem ≠ .invalidAssignmentTarget :=
    ⟨x, List.mem_of_find?_eq_some hx, by simpa using List.find?_some hx⟩
  obtain ⟨before, y, after, hy, hbefore, hne, hrefusal⟩ := Descent.program_locates hc hnotDeep hfault
  have hfind : c.complaints.toList.find? (·.problem ≠ .invalidAssignmentTarget) = some y :=
    List.find?_eq_some_iff_append.mpr ⟨by simpa using hne, before, after, hy, by simpa using hbefore⟩
  obtain rfl : x = y := Option.some.inj (hx.symm.trans hfind)
  obtain ⟨k, hk, htoken⟩ := Config.refusal?_eq_some hrefusal
  rw [Cursor.start, scan_tokens] at hrefusal
  obtain ⟨f, hf, hlocated⟩ := phrasesFrom_refusal source.toList.length 1 0 0 .start source.toList (Nat.le_refl _)
    rfl (Nat.add_comm _ _) (clean_of_scan hclean) hrefusal
  refine ⟨x, f, hfirst, hxd, ?_, hf, hlocated⟩
  have hindex : x.index = k := hk.trans (Nat.zero_add k)
  rwa [hindex]

end Reading

/-- Unless a text is nested too deeply or its characters are at fault, a reader by the grammar stops at the token that
the first diagnostic about no target blames: its one diagnostic stands on that line, but for a string of several lines,
and names the token, but for a comma or a dot. So both name the end of the text, and words that are set aside. -/
theorem first_faults_agree {parse : Ascent.Reader} (hparse : parse.Lawful) (source : String)
    (hclean : (scan source).diagnostics = []) (hdeep : ¬ (Reading.descent source).Deep) {d : Diagnostic}
    (hd : (Reading.descent source).diagnostics.find? (·.problem ≠ .invalidAssignmentTarget) = some d) :
    ∃ x d', Reading.firstFault? source = some x ∧ x.diagnostic = d ∧ (scan source).tokens[x.index]? = some x.token ∧
      (Reading.ascentBy parse source).statements = [] ∧ (Reading.ascentBy parse source).diagnostics = [d'] ∧
      (d'.line = d.line ∨ x.token.kind = .string ∧ ∃ s, x.token.lexeme = .text s ∧ '\n' ∈ s.toList) ∧
      d'.place = (if x.token.kind ∈ [.comma, .dot] then .unnamed else d.place) ∧
      (x.token.kind = .eof → d.place = .atEnd ∧ d'.place = .atEnd ∧ d'.line = d.line) ∧
      ∀ w ∈ Ascent.reserved, x.token.kind = Kind.ofWord w → d.place = .atLexeme w ∧ d'.place = .atLexeme w := by
  obtain rfl := hparse.unique Ascent.parse_lawful
  obtain ⟨x, f, hfirst, rfl, htoken, hphrases, hplace, hline⟩ := Reading.exists_located hclean hdeep hd
  have hascent : Reading.ascentBy Ascent.parse source = ⟨[], [f.diagnostic source], #[]⟩ := by
    rw [Reading.ascentBy, Ascent.program_of_error hphrases]
  refine ⟨x, f.diagnostic source, hfirst, rfl, htoken, by rw [hascent], by rw [hascent], hline, hplace, fun he => ?_,
    fun w hw hk => ?_⟩
  · have hend : x.token.place = .atEnd := if_pos he
    rw [if_neg (by simp [he])] at hplace
    exact ⟨hend, hplace.trans hend, hline.resolve_right fun h => by simp [he] at h⟩
  · have hkinds : ∀ w ∈ Ascent.reserved, Kind.ofWord w ∉ [Kind.comma, .dot] ∧ Kind.ofWord w ≠ .eof := by decide
    obtain ⟨hmarks, hne⟩ := hkinds w hw
    have hlexeme : x.token.place = .atLexeme w := by
      have hmem := List.mem_of_getElem? htoken
      rw [scan_tokens] at hmem
      rw [Token.place, hk, if_neg hne, lexeme_of_reserved hmem hw hk]
      rfl
    rw [hk, if_neg hmarks] at hplace
    exact ⟨hlexeme, hplace.trans hlexeme⟩

theorem first_faults_agree_reserved :
    let source := "1 = 2; // one\nfor (;;) \x7b print fun; else"
    (scan source).diagnostics = [] ∧ ¬ (Reading.descent source).Deep ∧
      (Reading.descent source).diagnostics.find? (·.problem ≠ .invalidAssignmentTarget) =
        some ⟨2, .atLexeme "fun", .missing .expression⟩ ∧
      ∃ d', (Reading.ascent source).diagnostics = [d'] ∧ d'.line = 2 ∧ d'.place = .atLexeme "fun" := by
  intro source
  have hclean : (scan source).diagnostics = [] := by decide +kernel
  have hdeep : ¬ (Reading.descent source).Deep := by decide +kernel
  have hd : (Reading.descent source).diagnostics.find? (·.problem ≠ .invalidAssignmentTarget) =
      some ⟨2, .atLexeme "fun", .missing .expression⟩ := by decide +kernel
  have hfirst : Reading.firstFault? source = some ⟨11, ⟨.funWord, .text "fun", .nil, 2⟩, .missing .expression⟩ := by
    decide +kernel
  obtain ⟨x, d', hx, -, -, -, hascent, hline, -, -, hreserved⟩ := first_faults_agree Ascent.parse_lawful source hclean hdeep hd
  cases hx.symm.trans hfirst
  have hstring : ¬ (Kind.funWord = .string ∧ ∃ s, Value.text "fun" = .text s ∧ '\n' ∈ s.toList) := by simp
  exact ⟨hclean, hdeep, hd, d', hascent, hline.resolve_right hstring, (hreserved "fun" (by decide) rfl).2⟩

end Lox
