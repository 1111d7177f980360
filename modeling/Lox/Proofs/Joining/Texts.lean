import Lox.Proofs.Ascent.Text
import Lox.Proofs.Layout.Lines

namespace Lox

open Ascent Text

def joined (sources : List String) : String :=
  "\n".intercalate sources

/-- The newlines of the joined texts before one of them. -/
def newlinesBefore (sources : List String) (i : Nat) : Nat :=
  List.count '\n' (asLines (sources.take i)).toList

section

variable {k k' : Kind} {w w' cs ds after : List Char} {v v' : Value} {s : Segment} {b : Char}

theorem prefix_of_stop (h : w <+: cs ++ b :: ds) (hw : b ∉ w) : w <+: cs := by
  obtain ⟨tail, ht⟩ := h
  rcases List.append_eq_append_iff.mp ht with ⟨us, rfl, -⟩ | ⟨us, rfl, hus⟩
  · exact List.prefix_append w us
  · cases us with
    | nil => simp
    | cons u us =>
      cases hus
      exact absurd (by simp) hw

theorem length_le_of_quoted {body body' : List Char} (hbody : '"' ∉ body') (hw : '"' :: body ++ ['"'] <+: cs)
    (hw' : '"' :: body' ++ ['"'] <+: cs) : ('"' :: body' ++ ['"']).length ≤ ('"' :: body ++ ['"']).length := by
  rcases List.prefix_or_prefix_of_prefix hw' hw with hp | hp
  · exact hp.length_le
  · rcases List.prefix_concat_iff.mp (List.cons_prefix_cons.mp hp).2 with heq | hp
    · exact Nat.le_of_eq (congrArg (fun cs => ('"' :: cs).length) heq.symm)
    · exact absurd (hp.subset (by simp)) hbody

theorem length_le_of_stop (hb : b ∈ stops) (h : IsLexeme k w v)
    (hlong : ∀ k' w' v', IsLexeme k' w' v' → w' <+: w ++ after → w'.length ≤ w.length) (h' : IsLexeme k' w' v')
    (hp : w' <+: w ++ (after ++ b :: ds)) : w'.length ≤ w.length := by
  rcases h'.quoted_or with ⟨-, body', hbody', rfl⟩ | hnone
  · have hquote : '"' ∈ w := by
      obtain ⟨c, cs, rfl⟩ := List.exists_cons_of_ne_nil h.ne_nil
      rw [List.cons_append] at hp
      exact List.mem_cons.mpr (.inl (List.cons_prefix_cons.mp hp).1)
    rcases h.quoted_or with ⟨-, body, -, rfl⟩ | hnone
    · exact length_le_of_quoted hbody' (List.prefix_append _ _) hp
    · exact absurd hquote (hnone '"' (by decide))
  · rw [← List.append_assoc] at hp
    exact hlong _ _ _ h' (prefix_of_stop hp (hnone b hb))

theorem Segment.Fits.lexeme_before_stop (hb : b ∈ stops) (h : (Segment.lexeme k w).Fits after) :
    (Segment.lexeme k w).Fits (after ++ b :: ds) := by
  cases h with
  | lexeme hw hcomment hlong =>
    refine .lexeme hw (fun hp => ?_) fun _ _ _ h' hp => length_le_of_stop hb hw hlong h' hp
    have hslashes : ∀ d ∈ stops, d ∉ ['/', '/'] := by simp [stops]
    rw [← List.append_assoc] at hp
    exact hcomment (prefix_of_stop hp (hslashes b hb))

theorem Segment.Fits.before_newline (h : s.Fits after) (hs : ∀ body, s ≠ .unterminated body) :
    s.Fits (after ++ '\n' :: ds) := by
  cases h with
  | blank hc => exact .blank hc
  | comment hbody hafter =>
    refine .comment hbody fun c hc => ?_
    cases after with
    | nil => exact (Option.some.inj hc).symm
    | cons a as => exact hafter c hc
  | lexeme hw hcomment hlong => exact lexeme_before_stop (by decide) (.lexeme hw hcomment hlong)
  | @unexpected c _ hc hnone =>
    refine .unexpected hc fun k w v hw hp => ?_
    rcases hw.quoted_or with ⟨-, body, -, rfl⟩ | hnot
    · exact hc (by simp [← (List.cons_prefix_cons.mp hp).1])
    · rw [← List.cons_append] at hp
      exact hnone k w v hw (prefix_of_stop hp (hnot '\n' (by decide)))
  | unterminated => exact absurd rfl (hs _)

theorem Segmentation.append_newline {ss ss' : List Segment} (h : Segmentation cs ss)
    (hs : ∀ body, .unterminated body ∉ ss) (h' : Segmentation ds ss') :
    Segmentation (cs ++ '\n' :: ds) (ss ++ .blank '\n' :: ss') := by
  induction h with
  | nil => exact .cons (s := .blank '\n') (.blank (by simp)) h'
  | @cons s ss after hfits _ ih =>
    rw [List.append_assoc]
    refine .cons (hfits.before_newline fun body he => hs body (by simp [he])) ?_
    exact ih fun body hm => hs body (List.mem_cons_of_mem s hm)

theorem segments_append_newline (h : ∀ body, .unterminated body ∉ segments cs) :
    segments (cs ++ '\n' :: ds) = segments cs ++ .blank '\n' :: segments ds :=
  (segmentation_iff.mp ((segmentation_iff.mpr rfl).append_newline h (segmentation_iff.mpr rfl))).symm

theorem not_unterminated (h : ((segments cs).all fun s => (s.diagnostic? 0).isNone) = true) :
    ∀ body, .unterminated body ∉ segments cs :=
  fun _ hm => Bool.false_ne_true (List.all_eq_true.mp h _ hm)

theorem tokensFrom_append_newline (line : Nat) (h : ((segments cs).all fun s => (s.diagnostic? 0).isNone) = true) :
    tokensFrom line (cs ++ '\n' :: ds) = tokensFrom line cs ++ tokensFrom (line + List.count '\n' cs + 1) ds := by
  rw [tokensFrom, segments_append_newline (not_unterminated h), Segment.numbered_append, flatten_segments, List.filterMap_append]
  rfl

theorem tokensFrom_add (line n : Nat) (cs : List Char) :
    tokensFrom (line + n) cs = (tokensFrom line cs).map (·.reline (· + n)) := by
  unfold tokensFrom
  induction segments cs generalizing line with
  | nil => rfl
  | cons s ss ih =>
    rw [Segment.numbered, Segment.numbered, List.filterMap_cons, List.filterMap_cons, Nat.add_right_comm, ih]
    cases s with
    | lexeme => simp [Segment.token?, Token.reline]
    | blank | comment | unexpected | unterminated => rfl

end

section

variable {s : String} {sources : List String}

theorem newlinesBefore_zero : newlinesBefore sources 0 = 0 := rfl

theorem newlinesBefore_succ (i : Nat) :
    newlinesBefore (s :: sources) (i + 1) = List.count '\n' s.toList + 1 + newlinesBefore sources i := by
  simp [newlinesBefore, asLines, List.count_append]
  omega

theorem joined_cons (h : sources ≠ []) : (joined (s :: sources)).toList = s.toList ++ '\n' :: (joined sources).toList := by
  obtain ⟨s', sources, rfl⟩ := List.exists_cons_of_ne_nil h
  simp [joined]

theorem joined_singleton : joined [s] = s := by
  simp [joined]

theorem joined_eq {i : Nat} (h : i < sources.length) :
    joined sources = asLines (sources.take i) ++ joined (sources.drop i) := by
  induction i generalizing sources with
  | zero => simp [asLines]
  | succ i ih =>
    obtain ⟨s, sources, rfl⟩ := List.exists_cons_of_length_pos (Nat.zero_lt_of_lt h)
    have hi : i < sources.length := Nat.lt_of_succ_lt_succ h
    refine String.toList_inj.mp ?_
    rw [joined_cons (List.ne_nil_of_length_pos (Nat.zero_lt_of_lt hi)), ih hi]
    simp [asLines]

theorem tokensFrom_joined (h : ∀ s ∈ sources, ((segments s.toList).all fun s => (s.diagnostic? 0).isNone) = true)
    (line : Nat) : ((segments (joined sources).toList).all fun s => (s.diagnostic? 0).isNone) = true ∧
      tokensFrom line (joined sources).toList =
        (sources.mapIdx fun i s => tokensFrom (line + newlinesBefore sources i) s.toList).flatten := by
  induction sources generalizing line with
  | nil => exact ⟨by simp [joined, segments], by simp [joined, tokensFrom, segments, Segment.numbered]⟩
  | cons s sources ih =>
    obtain ⟨hs, hsources⟩ := List.forall_mem_cons.mp h
    by_cases hne : sources = []
    · subst hne
      rw [joined_singleton]
      exact ⟨hs, by simp [newlinesBefore_zero]⟩
    · obtain ⟨hclean, htokens⟩ := ih hsources (line + List.count '\n' s.toList + 1)
      rw [joined_cons hne]
      refine ⟨?_, ?_⟩
      · rw [segments_append_newline (not_unterminated hs), List.all_append, hs, Bool.true_and, List.all_cons, hclean]
        rfl
      · rw [tokensFrom_append_newline line hs, htokens, List.mapIdx_cons, List.flatten_cons]
        simp only [newlinesBefore_zero, newlinesBefore_succ, Nat.add_zero, Nat.add_assoc]

theorem scan_joined (h : ∀ s ∈ sources, (scan s).diagnostics = []) : (scan (joined sources)).diagnostics = [] ∧
    ∃ e, e.kind = .eof ∧ (scan (joined sources)).tokens =
      (sources.mapIdx fun i s => (tokensFrom 1 s.toList).map (·.reline (· + newlinesBefore sources i))).flatten ++ [e] := by
  obtain ⟨hclean, htokens⟩ := tokensFrom_joined (fun s hs => faultless_iff.mpr (h s hs)) 1
  refine ⟨faultless_iff.mp hclean, endToken (1 + List.count '\n' (joined sources).toList : Nat), rfl, ?_⟩
  simp only [← tokensFrom_add, ← htokens]
  exact scan_tokens _

end

end Lox
