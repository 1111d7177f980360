import Lox.Proofs.Joining.Texts

namespace Lox

open Ascent Text

/-- What is told of a token apart from its line. -/
def Token.content (t : Token) : Kind × Value × Value :=
  (t.kind, t.lexeme, t.literal)

def Scan.lexemes (s : Scan) : List String :=
  s.tokens.dropLast.map Token.spelling

def respelled (source : String) : String :=
  " ".intercalate (scan source).lexemes

namespace Segment

def isLexeme : Segment → Bool
  | .lexeme _ _ => true
  | _ => false

def content? : Segment → Option (Kind × Value × Value)
  | .lexeme kind cs => some (kind, .text (String.ofList cs), literal kind cs)
  | _ => none

variable {s : Segment} {after : List Char}

theorem Fits.alone (h : s.Fits after) (hs : s.isLexeme = true) : s.Fits [] := by
  cases h with
  | @lexeme k w v _ hw hcomment hlong =>
    have hmore : ∀ {u}, u <+: w ++ [] → u <+: w ++ after := by
      intro u hu
      rw [List.append_nil] at hu
      exact hu.trans (List.prefix_append w after)
    exact .lexeme hw (fun hp => hcomment (hmore hp)) fun k' w' v' hw' hp => hlong k' w' v' hw' (hmore hp)
  | _ => cases hs

theorem Fits.before_space (h : s.Fits []) (hs : s.isLexeme = true) (after : List Char) : s.Fits (' ' :: after) := by
  cases s with
  | lexeme k w => exact Fits.lexeme_before_stop (by decide) h
  | _ => cases hs

end Segment

theorem Segmentation.fits_of_mem {cs : List Char} {ss : List Segment} {s : Segment} (h : Segmentation cs ss)
    (hs : s ∈ ss) : ∃ after, s.Fits after := by
  induction h with
  | nil => cases hs
  | cons hfits _ ih =>
    rcases List.mem_cons.mp hs with rfl | hs
    · exact ⟨_, hfits⟩
    · exact ih hs

theorem content_tokensFrom (line : Nat) (cs : List Char) :
    (tokensFrom line cs).map Token.content = (segments cs).filterMap Segment.content? := by
  unfold tokensFrom
  induction segments cs generalizing line with
  | nil => rfl
  | cons s ss ih =>
    rw [Segment.numbered, List.filterMap_cons, List.filterMap_cons]
    cases s with
    | lexeme k w => exact congrArg (_ :: ·) (ih _)
    | blank | comment | unexpected | unterminated => exact ih _

def lexemesOf (cs : List Char) : List Segment :=
  (segments cs).filter Segment.isLexeme

theorem fits_of_mem_lexemesOf {cs : List Char} {s : Segment} (h : s ∈ lexemesOf cs) :
    s.isLexeme = true ∧ s.Fits [] := by
  obtain ⟨hs, hlexeme⟩ := List.mem_filter.mp h
  obtain ⟨after, hfits⟩ := (segmentation_iff.mpr rfl).fits_of_mem hs
  exact ⟨hlexeme, hfits.alone hlexeme⟩

section

variable {ss : List Segment}

theorem filterMap_content?_filter : (ss.filter Segment.isLexeme).filterMap Segment.content? =
    ss.filterMap Segment.content? := by
  rw [List.filterMap_filter]
  apply congrArg (List.filterMap · ss)
  funext s
  cases s <;> rfl

theorem described_content? : (ss.filterMap Segment.content?).map (fun c => c.2.1.described) =
    (ss.filter Segment.isLexeme).map fun s => String.ofList s.chars := by
  induction ss with
  | nil => rfl
  | cons s ss ih =>
    rw [List.filterMap_cons, List.filter_cons]
    cases s with
    | lexeme k w => exact congrArg (_ :: ·) ih
    | blank | comment | unexpected | unterminated => exact ih

theorem filterMap_content?_intersperse : (ss.intersperse (.blank ' ')).filterMap Segment.content? =
    ss.filterMap Segment.content? := by
  induction ss with
  | nil => rfl
  | cons s ss ih =>
    cases ss with
    | nil => rfl
    | cons s' ss => simp [List.filterMap_cons, Segment.content?, ih]

theorem mem_intersperse {s : Segment} (h : s ∈ ss.intersperse (.blank ' ')) : s = .blank ' ' ∨ s ∈ ss := by
  induction ss with
  | nil => cases h
  | cons s' ss ih =>
    cases ss with
    | nil => exact .inr h
    | cons s'' ss =>
      rw [List.intersperse_cons_cons] at h
      rcases List.mem_cons.mp h with rfl | h
      · exact .inr List.mem_cons_self
      rcases List.mem_cons.mp h with rfl | h
      · exact .inl rfl
      · exact (ih h).imp_right (List.mem_cons_of_mem _)

theorem segmentation_intersperse (h : ∀ s ∈ ss, s.isLexeme = true ∧ s.Fits []) :
    Segmentation ([' '].intercalate (ss.map Segment.chars)) (ss.intersperse (.blank ' ')) := by
  induction ss with
  | nil => exact .nil
  | cons s ss ih =>
    obtain ⟨⟨hs, hfits⟩, hss⟩ := List.forall_mem_cons.mp h
    cases ss with
    | nil =>
      have halone : Segmentation (s.chars ++ []) [s] := .cons hfits .nil
      simpa using halone
    | cons s' ss =>
      have hspace : Segment.Fits (.blank ' ') ([' '].intercalate ((s' :: ss).map Segment.chars)) := .blank (by simp)
      have hspaced := Segmentation.cons (hfits.before_space hs _) (.cons hspace (ih hss))
      simpa [Segment.chars] using hspaced

end

theorem content_scan (source : String) : (scan source).tokens.map Token.content =
    (segments source.toList).filterMap Segment.content? ++ [(endToken 0).content] := by
  rw [← content_tokensFrom 1, scan_tokens]
  exact List.map_append

theorem lexemes_scan (source : String) : (scan source).lexemes =
    ((segments source.toList).filterMap Segment.content?).map fun c => c.2.1.described := by
  have hlexemes : (scan source).lexemes =
      ((scan source).tokens.map Token.content).dropLast.map fun c => c.2.1.described := by
    rw [Scan.lexemes, ← List.map_dropLast, List.map_map]
    rfl
  rw [hlexemes, content_scan, List.dropLast_concat]

theorem segments_respelled (source : String) :
    segments (respelled source).toList = (lexemesOf source.toList).intersperse (.blank ' ') := by
  have hspaced := segmentation_intersperse fun s (hs : s ∈ lexemesOf source.toList) => fits_of_mem_lexemesOf hs
  have hchars : (respelled source).toList = [' '].intercalate ((lexemesOf source.toList).map Segment.chars) := by
    rw [respelled, lexemes_scan, described_content?, String.toList_intercalate, List.map_map]
    simp [Function.comp_def, lexemesOf]
  rw [hchars]
  exact (segmentation_iff.mp hspaced).symm

theorem contents_respelled (source : String) : (segments (respelled source).toList).filterMap Segment.content? =
    (segments source.toList).filterMap Segment.content? := by
  rw [segments_respelled, filterMap_content?_intersperse, lexemesOf, filterMap_content?_filter]

theorem diagnostics_respelled (source : String) : (scan (respelled source)).diagnostics = [] := by
  apply faultless_iff.mp
  rw [segments_respelled, List.all_eq_true]
  intro s hs
  rcases mem_intersperse hs with rfl | hs
  · rfl
  · have hlexeme := (fits_of_mem_lexemesOf hs).1
    cases s with
    | lexeme => rfl
    | blank | comment | unexpected | unterminated => cases hlexeme

/-- Whatever a text is, the lexemes of its tokens with a space between them scan without an error as tokens of the same
kinds, lexemes and values, with the end token behind them. So the text made of them is made of itself. -/
theorem respelled_rescans (source : String) :
    (scan (respelled source)).diagnostics = [] ∧
      (scan (respelled source)).tokens.map Token.content = (scan source).tokens.map Token.content ∧
      (∃ before e, (scan (respelled source)).tokens = before ++ [e] ∧ e.kind = .eof ∧ ∀ t ∈ before, t.kind ≠ .eof) ∧
      respelled (respelled source) = respelled source := by
  refine ⟨diagnostics_respelled source, ?_, ?_, ?_⟩
  · rw [content_scan, content_scan, contents_respelled]
  · exact ⟨_, _, scan_tokens _, rfl, fun t ht => kind_ne_eof_of_mem_tokensFrom ht⟩
  · rw [respelled, lexemes_scan, contents_respelled, ← lexemes_scan]
    rfl

end Lox
