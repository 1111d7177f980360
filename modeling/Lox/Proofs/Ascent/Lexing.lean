import Lox.Proofs.Ascent.Pieces

namespace Lox.Ascent

open Text

def blanks : List Char :=
  [' ', '\t', '\r', '\n']

def SetAside (cs : List Char) : Prop :=
  ∃ w ∈ reserved, ∃ rest, cs = w.toList ++ rest ∧ ∀ c ∈ rest.head?, isWord c = false

/-- A terminal takes a piece off the front of a text and leaves the rest, for a token of some kind or for nothing.
Each takes as much as it can, and of two marks the longer one is taken. -/
inductive Matches : Option Kind → List Char → List Char → Prop
  | blank {w rest} : w ≠ [] → (∀ c ∈ w, c ∈ blanks) → (∀ c ∈ rest.head?, c ∉ blanks) → Matches none w rest
  | comment {body rest} : '\n' ∉ body → (∀ c ∈ rest.head?, c = '\n') → Matches none ('/' :: '/' :: body) rest
  | whole {ds rest} : ds ≠ [] → (∀ d ∈ ds, isDigit d = true) → (∀ c ∈ rest.head?, isDigit c = false) →
      (∀ d ds, rest = '.' :: d :: ds → isDigit d = false) → Matches (some .number) ds rest
  | decimal {ds fs rest} : ds ≠ [] → fs ≠ [] → (∀ d ∈ ds, isDigit d = true) → (∀ d ∈ fs, isDigit d = true) →
      (∀ c ∈ rest.head?, isDigit c = false) → Matches (some .number) (ds ++ '.' :: fs) rest
  | string {body rest} : '"' ∉ body → Matches (some .string) ('"' :: body ++ ['"']) rest
  | name {c cs rest} : isAlpha c = true → (∀ d ∈ cs, isAlphanumeric d = true) →
      (∀ d ∈ rest.head?, isAlphanumeric d = false) → ¬ SetAside (c :: cs ++ rest) →
      Matches (some (kindOfName (String.ofList (c :: cs)))) (c :: cs) rest
  | mark {s k rest} : (s, k) ∈ marks → ¬ ['/', '/'] <+: s.toList ++ rest →
      (∀ m ∈ marks, m.1.toList <+: s.toList ++ rest → m.1.toList.length ≤ s.toList.length) →
      Matches (some k) s.toList rest

/-- The text from a line on begins with tokens, and what is left of it begins on another line. A token stands on the
line on which it begins. -/
inductive Lexes : Nat → List Char → List Token → Nat → List Char → Prop
  | here {line cs} : Lexes line cs [] line cs
  | ignored {line w rest ts line' left} : Matches none w rest → Lexes (line + w.count '\n') rest ts line' left →
      Lexes line (w ++ rest) ts line' left
  | token {line k w rest ts line' left} : Matches (some k) w rest →
      Lexes (line + w.count '\n') rest ts line' left →
      Lexes line (w ++ rest) (⟨k, .text (String.ofList w), literal k w, line⟩ :: ts) line' left

section

variable {p : Char → Bool} {c : Char} {cs w rest : List Char} {k : Kind} {k? : Option Kind}

theorem mem_blanks : c ∈ blanks ↔ isSpace c = true := by
  simp [blanks, isSpace_iff]

theorem run_eq_some (h : run p cs = some (w, rest)) :
    w ≠ [] ∧ (∀ c ∈ w, p c = true) ∧ (∀ c ∈ rest.head?, p c = false) ∧ cs = w ++ rest := by
  unfold run at h
  split at h
  · cases h
  · rename_i hne
    cases h
    refine ⟨hne, fun c => of_mem_takeWhile, fun c hc => ?_, List.takeWhile_append_dropWhile.symm⟩
    have hnot := List.head?_dropWhile_not p cs
    rw [hc] at hnot
    simpa using hnot

theorem run_of (hne : w ≠ []) (hw : ∀ c ∈ w, p c = true) (hrest : ∀ c ∈ rest.head?, p c = false) :
    run p (w ++ rest) = some (w, rest) := by
  unfold run
  rw [takeWhile_eq hw hrest, dropWhile_eq hw hrest]
  split
  · exact absurd rfl hne
  · rfl

theorem matches_of_number (h : number cs = some (w, rest)) : Matches (some .number) w rest ∧ cs = w ++ rest := by
  obtain ⟨⟨ds, behind⟩, hrun, hbehind⟩ := Option.bind_eq_some_iff.mp h
  obtain ⟨hne, hds, hhead, rfl⟩ := run_eq_some hrun
  dsimp only at hbehind
  split at hbehind
  · rename_i tail
    split at hbehind
    · rename_i fs tail' hfraction
      obtain ⟨hne', hfs, hhead', rfl⟩ := run_eq_some hfraction
      cases hbehind
      exact ⟨.decimal hne hne' hds hfs hhead', by simp⟩
    · rename_i hnone
      cases hbehind
      refine ⟨.whole hne hds hhead fun d ds' heq => ?_, rfl⟩
      obtain rfl := List.cons.inj heq |>.2
      apply Bool.eq_false_iff.mpr
      intro hd
      simp [run, hd] at hnone
  · rename_i hdot
    cases hbehind
    exact ⟨.whole hne hds hhead fun d ds' heq => absurd heq (hdot _), rfl⟩

theorem number_of_whole (hne : w ≠ []) (hw : ∀ d ∈ w, isDigit d = true) (hrest : ∀ c ∈ rest.head?, isDigit c = false)
    (hdot : ∀ d ds, rest = '.' :: d :: ds → isDigit d = false) : number (w ++ rest) = some (w, rest) := by
  simp only [number, run_of hne hw hrest, Option.bind_eq_bind, Option.bind_some]
  split
  · rename_i tail
    have hnone : run isDigit tail = none := by
      cases tail with
      | nil => rfl
      | cons d ds => exact run_eq_none (hdot d ds rfl)
    rw [hnone]
    rfl
  · rfl

theorem number_of_decimal {fs : List Char} (hne : w ≠ []) (hne' : fs ≠ []) (hw : ∀ d ∈ w, isDigit d = true)
    (hfs : ∀ d ∈ fs, isDigit d = true) (hrest : ∀ c ∈ rest.head?, isDigit c = false) :
    number (w ++ '.' :: fs ++ rest) = some (w ++ '.' :: fs, rest) := by
  have hdot : ∀ c ∈ ('.' :: (fs ++ rest)).head?, isDigit c = false := by simp [isDigit]
  have hrun : run isDigit (w ++ '.' :: (fs ++ rest)) = some (w, '.' :: (fs ++ rest)) := run_of hne hw hdot
  rw [List.append_assoc, List.cons_append]
  simp only [number, hrun, run_of hne' hfs hrest, Option.bind_eq_bind, Option.bind_some]
  rfl

theorem exactly_eq_some {s : String} (h : exactly s cs = some (w, rest)) : w = s.toList ∧ cs = s.toList ++ rest := by
  unfold exactly at h
  split at h
  · rename_i hp
    cases h
    obtain ⟨rest, rfl⟩ := List.isPrefixOf_iff_prefix.mp hp
    rw [List.drop_left]
    exact ⟨rfl, rfl⟩
  · cases h

theorem exactly_of_prefix {s : String} : exactly s (s.toList ++ rest) = some (s.toList, rest) := by
  rw [exactly, if_pos (List.isPrefixOf_iff_prefix.mpr (List.prefix_append _ _)), List.drop_left]

theorem exactly_eq_none {s : String} (h : ¬ s.toList <+: cs) : exactly s cs = none :=
  if_neg fun hp => h (List.isPrefixOf_iff_prefix.mp hp)

theorem matches_of_string (h : string cs = some (w, rest)) : Matches (some .string) w rest ∧ cs = w ++ rest := by
  unfold string at h
  split at h
  · rename_i cs
    split at h
    · cases h
    · rename_i quote tail hdrop
      cases h
      have happend := List.takeWhile_append_dropWhile (p := (· != '"')) (l := cs)
      have hquote := List.head?_dropWhile_not (· != '"') cs
      rw [hdrop] at happend hquote
      obtain rfl : quote = '"' := by simpa using hquote
      refine ⟨.string (not_mem_takeWhile (by simp)), ?_⟩
      simp [happend]
  · cases h

theorem setAside_iff : SetAside cs ↔ beginsReserved cs = true := by
  rw [beginsReserved, List.any_eq_true]
  constructor
  · rintro ⟨w, hw, rest, rfl, hrest⟩
    refine ⟨w, hw, ?_⟩
    rw [List.drop_left, List.isPrefixOf_iff_prefix.mpr (List.prefix_append _ _)]
    cases rest with
    | nil => rfl
    | cons d ds => simp [hrest d rfl]
  · rintro ⟨w, hw, h⟩
    simp only [Bool.and_eq_true, List.isPrefixOf_iff_prefix] at h
    obtain ⟨⟨rest, rfl⟩, h⟩ := h
    refine ⟨w, hw, rest, rfl, fun c hc => ?_⟩
    rw [List.drop_left, hc] at h
    simpa using h

theorem matches_of_name (h : name cs = some (w, rest)) :
    Matches (some (kindOfName (String.ofList w))) w rest ∧ cs = w ++ rest := by
  unfold name at h
  split at h
  · cases h
  · rename_i hr
    cases cs with
    | nil => cases h
    | cons c cs =>
      rw [word] at h
      split at h
      · rename_i hc
        cases h
        have happend : c :: cs.takeWhile isAlphanumeric ++ cs.dropWhile isAlphanumeric = c :: cs := by simp
        refine ⟨.name hc (fun d => of_mem_takeWhile) (fun d hd => ?_) ?_, happend.symm⟩
        · have hnot := List.head?_dropWhile_not isAlphanumeric cs
          rw [hd] at hnot
          simpa using hnot
        · rw [happend, setAside_iff]
          exact hr
      · cases h

theorem marks_sorted : marks.Pairwise fun a b => b.1.toList.length ≤ a.1.toList.length ∧ a.1 ≠ b.1 := by
  decide

theorem matches_of_mark (hcomment : comment cs = none)
    (hm : (marks.findSome? fun m => (exactly m.1 cs).map fun r => (some m.2, r.1, r.2)) = some (k?, w, rest)) :
    Matches k? w rest ∧ cs = w ++ rest := by
  obtain ⟨before, ⟨s, k⟩, behind, hmarks, hs, hbefore⟩ := List.findSome?_eq_some_iff.mp hm
  obtain ⟨⟨w', rest'⟩, hexactly, heq⟩ := Option.map_eq_some_iff.mp hs
  cases heq
  obtain ⟨rfl, rfl⟩ := exactly_eq_some hexactly
  have hsorted := marks_sorted
  rw [hmarks, List.pairwise_append] at hsorted
  refine ⟨.mark (by simp [hmarks]) ?_ fun m hm hp => ?_, rfl⟩
  · rintro ⟨tail, htail⟩
    rw [← htail] at hcomment
    cases hcomment
  · rw [hmarks] at hm
    rcases List.mem_append.mp hm with hm | hm
    · obtain ⟨tail, htail⟩ := hp
      have hnone := hbefore m hm
      rw [← htail, exactly_of_prefix] at hnone
      cases hnone
    · rcases List.mem_cons.mp hm with rfl | hm
      · exact Nat.le_refl _
      · exact ((List.pairwise_cons.mp hsorted.2.1).1 m hm).1

theorem match?_of_longest {s : String} (hm : (s, k) ∈ marks) (hcomment : ¬ ['/', '/'] <+: s.toList ++ rest)
    (hlongest : ∀ m ∈ marks, m.1.toList <+: s.toList ++ rest → m.1.toList.length ≤ s.toList.length) :
    match? (s.toList ++ rest) = some (some k, s.toList, rest) := by
  have hfirst : ∀ m ∈ marks, m.1.toList ≠ [] ∧ isSpace (m.1.toList.headD ' ') = false ∧
      isDigit (m.1.toList.headD ' ') = false ∧ m.1.toList.headD ' ' ≠ '"' ∧ isAlpha (m.1.toList.headD ' ') = false := by
    decide
  obtain ⟨hne, hspace, hdigit, hquote, halpha⟩ := hfirst _ hm
  obtain ⟨before, behind, hmarks⟩ := List.append_of_mem hm
  have hsorted := marks_sorted
  rw [hmarks, List.pairwise_append] at hsorted
  -- a mark listed earlier is no shorter, so it would be this one
  have hbefore : ∀ m ∈ before, exactly m.1 (s.toList ++ rest) = none := by
    intro m hmem
    refine exactly_eq_none fun hp => ?_
    obtain ⟨hlen, hdiff⟩ := hsorted.2.2 m hmem (s, k) (by simp)
    have hlen' := hlongest m (by simp [hmarks, hmem]) hp
    have hbegins := List.prefix_of_prefix_length_le hp (List.prefix_append s.toList rest) hlen'
    exact hdiff (String.toList_inj.mp (hbegins.eq_of_length (Nat.le_antisymm hlen' hlen)))
  have hmark : (marks.findSome? fun m => (exactly m.1 (s.toList ++ rest)).map fun r => (some m.2, r.1, r.2)) =
      some (some k, s.toList, rest) := by
    rw [hmarks, List.findSome?_append, List.findSome?_eq_none_iff.mpr fun m hmem => by rw [hbefore m hmem, Option.map_none],
      Option.none_or, List.findSome?_cons, exactly_of_prefix]
    rfl
  obtain ⟨c, cs, heq⟩ := List.exists_cons_of_ne_nil hne
  rw [heq, List.cons_append] at hmark hcomment ⊢
  rw [heq, List.headD_cons] at hspace hdigit hquote halpha
  rw [match?_eq_marks hspace ?_ hdigit (string_eq_none hquote) (name_eq_none halpha), hmark]
  unfold comment
  split
  · rename_i tail htail
    rw [htail] at hcomment
    exact absurd ⟨tail, rfl⟩ hcomment
  · rfl

theorem matches_of_match? (h : match? cs = some (k?, w, rest)) : Matches k? w rest ∧ cs = w ++ rest := by
  simp only [match?, terminals, List.cons_append, List.nil_append, List.findSome?_cons, List.findSome?_map,
    Function.comp_def] at h
  cases hblank : run isSpace cs with
  | some r =>
    rw [hblank] at h
    cases h
    obtain ⟨hne, hw, hrest, rfl⟩ := run_eq_some hblank
    refine ⟨.blank hne (fun c hc => mem_blanks.mpr (hw c hc)) (fun c hc hm => ?_), rfl⟩
    cases (hrest c hc).symm.trans (mem_blanks.mp hm)
  | none =>
  cases hcomment : comment cs with
  | some r =>
    rw [hblank, hcomment] at h
    cases h
    unfold comment at hcomment
    split at hcomment <;> cases hcomment
    rename_i cs
    refine ⟨.comment (not_mem_takeWhile (by simp)) fun c hc => ?_, by simp⟩
    have hnot := List.head?_dropWhile_not (· != '\n') cs
    rw [hc] at hnot
    simpa using hnot
  | none =>
  cases hnumber : number cs with
  | some r =>
    rw [hblank, hcomment, hnumber] at h
    cases h
    exact matches_of_number hnumber
  | none =>
  cases hstring : string cs with
  | some r =>
    rw [hblank, hcomment, hnumber, hstring] at h
    cases h
    exact matches_of_string hstring
  | none =>
  cases hname : name cs with
  | some r =>
    rw [hblank, hcomment, hnumber, hstring, hname] at h
    cases h
    exact matches_of_name hname
  | none =>
    rw [hblank, hcomment, hnumber, hstring, hname] at h
    exact matches_of_mark hcomment h

theorem match?_of_matches (h : Matches k? w rest) : match? (w ++ rest) = some (k?, w, rest) := by
  cases h with
  | blank hne hw hrest =>
    have hrest : ∀ c ∈ rest.head?, isSpace c = false := fun c hc => by
      simpa [mem_blanks] using hrest c hc
    have hrun := run_of hne (fun c hc => mem_blanks.mp (hw c hc)) hrest
    simp [match?, terminals, hrun]
  | @comment body _ hbody hrest =>
    have hw : ∀ c ∈ body, (c != '\n') = true := fun c hc => bne_iff_ne.mpr fun he => hbody (he ▸ hc)
    have hrest : ∀ c ∈ rest.head?, (c != '\n') = false := fun c hc => by simp [hrest c hc]
    rw [List.cons_append, List.cons_append, match?_of_comment, takeWhile_eq hw hrest, dropWhile_eq hw hrest]
  | whole hne hw hrest hdot =>
    have hnumber := number_of_whole hne hw hrest hdot
    obtain ⟨d, ds, rfl⟩ := List.exists_cons_of_ne_nil hne
    exact match?_of_number (hw d (by simp)) hnumber
  | decimal hne hne' hw hfs hrest =>
    have hnumber := number_of_decimal hne hne' hw hfs hrest
    obtain ⟨d, ds, rfl⟩ := List.exists_cons_of_ne_nil hne
    exact match?_of_number (hw d (by simp)) hnumber
  | @string body _ hbody =>
    have hw : ∀ c ∈ body, (c != '"') = true := fun c hc => bne_iff_ne.mpr fun he => hbody (he ▸ hc)
    have hrest : ∀ c ∈ (['"'] ++ rest).head?, (c != '"') = false := by simp
    rw [List.cons_append, List.cons_append, List.append_assoc, match?_of_string, takeWhile_eq hw hrest,
      dropWhile_eq hw hrest]
    rfl
  | name hc hcs hrest hr =>
    rw [setAside_iff] at hr
    rw [List.cons_append] at hr ⊢
    rw [match?_of_isAlpha hc, if_neg hr, takeWhile_eq hcs hrest, dropWhile_eq hcs hrest]
  | mark hm hcomment hlongest => exact match?_of_longest hm hcomment hlongest

theorem match?_eq_some_iff : match? cs = some (k?, w, rest) ↔ Matches k? w rest ∧ cs = w ++ rest := by
  constructor
  · exact matches_of_match?
  · rintro ⟨h, rfl⟩
    exact match?_of_matches h

theorem Matches.unique {k' : Option Kind} {w' rest' : List Char} (h : Matches k? w rest) (h' : Matches k' w' rest')
    (heq : w ++ rest = w' ++ rest') : k? = k' ∧ w = w' ∧ rest = rest' := by
  have hm := match?_of_matches h
  rw [heq, match?_of_matches h'] at hm
  cases hm
  exact ⟨rfl, rfl, rfl⟩

theorem Matches.kind_ne_eof (h : Matches (some k) w rest) : k ≠ .eof := by
  have hmarks : ∀ m ∈ marks, m.2 ≠ .eof := by decide
  have hkeywords : ∀ p ∈ keywords, p.2 ≠ .eof := by decide
  cases h with
  | whole | decimal | string => simp
  | name =>
    unfold kindOfName
    cases hlookup : keywords.lookup _ with
    | none => simp
    | some k =>
      obtain ⟨before, behind, heq, -⟩ := List.lookup_eq_some_iff.mp hlookup
      exact hkeywords _ (heq ▸ List.mem_append_right before List.mem_cons_self)
  | mark hm => exact hmarks _ hm

theorem Matches.ne_nil (h : Matches k? w rest) : w ≠ [] := by
  have hmarks : ∀ m ∈ marks, m.1.toList ≠ [] := by decide
  cases h with
  | blank hne | whole hne => exact hne
  | comment | decimal | string | name => simp
  | mark hm => exact hmarks _ hm

end

section

variable {line line' line'' : Nat} {cs left left' : List Char} {ts ts' : List Token}

theorem Lexes.compare (h : Lexes line cs ts line' left) (h' : Lexes line cs ts' line'' left') :
    (∃ us, ts' = ts ++ us ∧ Lexes line' left us line'' left') ∨ ∃ us, ts = ts' ++ us ∧ Lexes line'' left' us line' left := by
  induction h generalizing ts' line'' left' with
  | here => exact .inl ⟨ts', rfl, h'⟩
  | @ignored _ w rest _ _ _ hm h ih =>
    generalize hcs : w ++ rest = cs at h'
    cases h' with
    | here => exact .inr ⟨_, rfl, hcs ▸ .ignored hm h⟩
    | ignored hm' h' =>
      obtain ⟨-, rfl, rfl⟩ := hm.unique hm' hcs
      exact ih h'
    | token hm' h' => cases (hm.unique hm' hcs).1
  | @token _ k w rest _ _ _ hm h ih =>
    generalize hcs : w ++ rest = cs at h'
    cases h' with
    | here => exact .inr ⟨_, rfl, hcs ▸ .token hm h⟩
    | ignored hm' h' => cases (hm.unique hm' hcs).1
    | token hm' h' =>
      obtain ⟨hk, rfl, rfl⟩ := hm.unique hm' hcs
      cases hk
      rcases ih h' with ⟨us, rfl, hus⟩ | ⟨us, rfl, hus⟩
      · exact .inl ⟨us, rfl, hus⟩
      · exact .inr ⟨us, rfl, hus⟩

theorem Lexes.of_stuck (h : Lexes line cs ts line' left) (hstuck : ∀ k w rest, Matches k w rest → cs ≠ w ++ rest) :
    ts = [] ∧ line' = line ∧ left = cs := by
  cases h with
  | here => exact ⟨rfl, rfl, rfl⟩
  | ignored hm => exact absurd rfl (hstuck _ _ _ hm)
  | token hm => exact absurd rfl (hstuck _ _ _ hm)

theorem not_matches_nil : ∀ k w rest, Matches k w rest → [] ≠ w ++ rest := by
  intro k w rest h heq
  exact h.ne_nil (List.append_eq_nil_iff.mp heq.symm).1

theorem Lexes.suffix (h : Lexes line cs ts line' left) : left <:+ cs := by
  induction h with
  | here => exact List.suffix_rfl
  | ignored _ _ ih | token _ _ ih => exact ih.trans (List.suffix_append _ _)

theorem Lexes.kind_ne_eof (h : Lexes line cs ts line' left) : ∀ t ∈ ts, t.kind ≠ .eof := by
  induction h with
  | here => simp
  | ignored _ _ ih => exact ih
  | token hm _ ih => exact List.forall_mem_cons.mpr ⟨hm.kind_ne_eof, ih⟩

end

end Lox.Ascent
