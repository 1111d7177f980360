import Mathlib.Data.List.TakeWhile
import Lox.Prompt
import Lox.Proofs.Agreement

namespace Lox

namespace Text

theorem trim_eq_empty_iff {s : String} : trim s = "" ↔ ∀ c ∈ s.toList, isBlank c = true := by
  rw [trim, String.ofList_eq_empty_iff, List.reverse_eq_nil_iff, List.dropWhile_eq_nil_iff]
  simp only [List.mem_reverse]
  refine ⟨fun h => ?_, fun h c hc => h c ((List.dropWhile_suffix _).subset hc)⟩
  refine List.dropWhile_eq_nil_iff.mp (Classical.byContradiction fun hne => ?_)
  have hhead := List.head_dropWhile_not isBlank hne
  rw [h _ (List.head_mem hne)] at hhead
  cases hhead

theorem toNat_of_isBlank {c : Char} (h : isBlank c = true) : c.toNat ≤ 32 ∨ 133 ≤ c.toNat := by
  simp [isBlank, inRanges, blankRanges] at h
  omega

theorem isDigit_eq_false_of_isBlank {c : Char} (h : isBlank c = true) : isDigit c = false := by
  refine Bool.eq_false_iff.mpr fun hd => ?_
  simp only [isDigit, Bool.and_eq_true, decide_eq_true_eq] at hd
  have hlow : 48 ≤ c.toNat := hd.1
  have hhigh : c.toNat ≤ 57 := hd.2
  have := toNat_of_isBlank h
  omega

theorem isAlpha_eq_false_of_isBlank {c : Char} (h : isBlank c = true) : isAlpha c = false := by
  refine Bool.eq_false_iff.mpr fun ha => ?_
  have hblank := toNat_of_isBlank h
  simp only [isAlpha, Bool.or_eq_true, Bool.and_eq_true, decide_eq_true_eq, beq_iff_eq] at ha
  rcases ha with (⟨hlow, hhigh⟩ | ⟨hlow, hhigh⟩) | rfl
  · have hlow : 97 ≤ c.toNat := hlow
    have hhigh : c.toNat ≤ 122 := hhigh
    omega
  · have hlow : 65 ≤ c.toNat := hlow
    have hhigh : c.toNat ≤ 90 := hhigh
    omega
  · exact absurd hblank (by decide)

end Text

open Text
open Ascent (isSpace)

theorem first_of_isBlank {c : Char} (h : isBlank c = true) (hs : isSpace c = false) (cs : List Char) :
    Segment.first c cs = (.unexpected c, cs) := by
  have hspecial : c ∉ special := by
    have hall : (special.all fun d => !(isBlank d && !isSpace d)) = true := by decide +kernel
    intro hm
    simpa [h, hs] using List.all_eq_true.mp hall c hm
  rw [first_of_not_special hspecial, if_neg (by simp [isDigit_eq_false_of_isBlank h]),
    if_neg (by simp [isAlpha_eq_false_of_isBlank h])]

theorem segments_of_isBlank {cs : List Char} (h : ∀ c ∈ cs, isBlank c = true) :
    segments cs = cs.map fun c => if isSpace c then .blank c else .unexpected c := by
  induction cs with
  | nil => rw [segments, List.map_nil]
  | cons c cs ih =>
    have hfirst : Segment.first c cs = (if isSpace c then .blank c else .unexpected c, cs) := by
      by_cases hs : isSpace c = true
      · rw [Ascent.first_of_isSpace hs, if_pos hs]
      · rw [first_of_isBlank (h c (by simp)) (Bool.eq_false_iff.mpr hs), if_neg hs]
    rw [segments, hfirst, ih fun d hd => h d (by simp [hd]), List.map_cons]

namespace Prompt

/-- A line of blanks only, with one among them that no program may have there. -/
def Overlooked (line : String) : Prop :=
  trim line = "" ∧ ∃ c ∈ line.toList, isSpace c = false

instance : DecidablePred Overlooked := fun line =>
  decidable_of_iff (trim line = "" ∧ (line.toList.all isSpace) = false) (by simp [Overlooked])

def heard (lines : List String) : List String :=
  lines.takeWhile fun line => !(Command.ofLine line).stops

end Prompt

open Prompt (Overlooked)

section

variable {line : String}

theorem diagnostics_of_overlooked (h : Overlooked line) : (scan line).diagnostics ≠ [] := by
  obtain ⟨hblank, c, hc, hs⟩ := h
  intro hnil
  have hall := Ascent.faultless_iff.mpr hnil
  rw [segments_of_isBlank (trim_eq_empty_iff.mp hblank), List.all_map, List.all_eq_true] at hall
  have hnone := hall c hc
  simp [hs, Segment.diagnostic?] at hnone

theorem scan_of_spaces (h : ∀ c ∈ line.toList, isSpace c = true) :
    (scan line).diagnostics = [] ∧ (scan line).tokens = [endToken (1 + List.count '\n' line.toList : Nat)] := by
  have hdrop : line.toList.dropWhile isSpace = [] := List.dropWhile_eq_nil_iff.mpr h
  have hnil : segments [] = [] := by rw [segments]
  refine ⟨Ascent.faultless_iff.mp ?_, ?_⟩
  · rw [Ascent.segments_blanks, hdrop, hnil, List.append_nil]
    simp [Segment.diagnostic?]
  · rw [Ascent.scan_tokens, Ascent.tokensFrom_blanks, hdrop, Ascent.tokensFrom, hnil]
    rfl

theorem read_of_spaces (f : FrontEnd) (h : ∀ c ∈ line.toList, isSpace c = true) :
    (f.read line).statements = [] ∧ (f.read line).diagnostics = [] := by
  obtain ⟨hclean, htokens⟩ := scan_of_spaces h
  cases f with
  | descent =>
    change (Reading.descent line).statements = [] ∧ (Reading.descent line).diagnostics = []
    rw [Reading.descent, htokens, hclean]
    exact ⟨rfl, rfl⟩
  | ascent =>
    have hprogram : Grammar.Program true (scan line).tokens [] := by
      rw [htokens]
      exact ⟨endToken _, rfl, .noDeclaration⟩
    have hderived : Reading.Derived line [] := ⟨hclean, hprogram⟩
    exact Reading.ascent_ofPhrases_of_le (Nat.zero_le _) hderived

theorem run_of_spaces (session : Session) (h : ∀ c ∈ line.toList, isSpace c = true) :
    (session.run line).1.out = "" ∧ (session.run line).1.err = "" ∧ (session.run line).2 = session := by
  obtain ⟨hstatements, hdiagnostics⟩ := read_of_spaces session.frontEnd h
  obtain ⟨notes, hrun⟩ := Session.run_of_nil hdiagnostics
  rw [hrun, hstatements]
  exact ⟨rfl, rfl, rfl⟩

theorem run_of_overlooked (session : Session) (h : Overlooked line) : (session.run line).1.status? = some ⟨true, false⟩ ∧
    (session.run line).1.out = "" ∧ (session.run line).1.err ≠ "" ∧ (session.run line).2 = session := by
  have hne : (session.frontEnd.read line).diagnostics ≠ [] := by
    intro hnil
    obtain ⟨ps, hps, -⟩ := Reading.exists_derived hnil
    exact diagnostics_of_overlooked h hps.1
  obtain ⟨notes, hrun⟩ := Session.run_of_ne_nil hne
  rw [hrun]
  refine ⟨rfl, rfl, ?_, rfl⟩
  obtain ⟨d, ds, hds⟩ := List.exists_cons_of_ne_nil hne
  change Diagnostic.lines _ ≠ ""
  rw [hds, Diagnostic.lines, List.map_cons, String.join_cons]
  simp [String.append_eq_empty_iff]

end

namespace Command

def effect (session : Session) (c : Command) : String × String × Session :=
  let (report?, after) := c.perform session
  (c.reply ++ (report?.map Report.out).getD "", (report?.map Report.err).getD "", after)

end Command

def Session.effect (session : Session) (source : String) : String × String × Session :=
  ((session.run source).1.out, (session.run source).1.err, (session.run source).2)

namespace Command

variable {line : String}

theorem ofLine_cases (line : String) : (ofLine line).stops = true ∧ (trim line = "exit" ∨ trim line = "EOF") ∨
    ofLine line = .nothing ∧ trim line = "" ∨ ofLine line = .run line ∧ trim line ≠ "" := by
  unfold ofLine
  dsimp only
  split
  · rename_i h
    exact .inl ⟨rfl, .inr h⟩
  split
  · rename_i h
    exact .inl ⟨rfl, .inl h⟩
  split
  · rename_i h
    exact .inr (.inl ⟨rfl, h⟩)
  · rename_i h
    exact .inr (.inr ⟨rfl, h⟩)

theorem effect_nothing (session : Session) : effect session .nothing = ("", "", session) :=
  rfl

theorem effect_run (session : Session) (line : String) : effect session (.run line) = session.effect line := by
  change ("" ++ (session.run line).1.out, (session.run line).1.err, (session.run line).2) = _
  rw [String.empty_append]
  rfl

theorem perform_of_stops {c : Command} (h : c.stops = true) (session : Session) : c.perform session = (none, session) := by
  cases c with
  | leave | endOfInput => rfl
  | nothing | run => cases h

end Command

theorem spaces_of_trim {line : String} (h : trim line = "") (ho : ¬ Overlooked line) :
    ∀ c ∈ line.toList, isSpace c = true := by
  intro c hc
  exact Classical.byContradiction fun hs => ho ⟨h, c, hc, Bool.eq_false_iff.mpr hs⟩

theorem effect_ofLine {line : String} (h : (Command.ofLine line).stops = false) (session : Session) :
    (Command.ofLine line).effect session = if Overlooked line then ("", "", session) else session.effect line := by
  rcases Command.ofLine_cases line with ⟨hstops, -⟩ | ⟨hline, htrim⟩ | ⟨hline, htrim⟩
  · rw [h] at hstops
    cases hstops
  · rw [hline, Command.effect_nothing]
    split
    · rfl
    · rename_i ho
      obtain ⟨hout, herr, hafter⟩ := run_of_spaces session (spaces_of_trim htrim ho)
      rw [Session.effect, hout, herr, hafter]
  · rw [hline, Command.effect_run, if_neg fun ho => htrim ho.1]

namespace Prompt

@[simp]
theorem filterMap_own (text : String) (said : List Utterance) :
    (Utterance.own text :: said).filterMap Utterance.report? = said.filterMap Utterance.report? :=
  rfl

@[simp]
theorem filterMap_report (r : Report) (said : List Utterance) :
    (Utterance.report r :: said).filterMap Utterance.report? = r :: said.filterMap Utterance.report? :=
  rfl

def effect (session : Session) (lines : List String) : String × String × Session :=
  let (said, after) := dialogue session lines
  let reports := said.filterMap Utterance.report?
  (String.join (reports.map Report.out), String.join (reports.map Report.err), after)

theorem effect_of_stops {line : String} (h : (Command.ofLine line).stops = true) (session : Session) (lines : List String) :
    effect session (line :: lines) = ("", "", session) := by
  rw [effect, dialogue]
  dsimp only
  rw [if_pos h, Command.perform_of_stops h]
  rfl

theorem effect_cons {line : String} (h : (Command.ofLine line).stops = false) (session : Session) (lines : List String) :
    effect session (line :: lines) =
      let now := (Command.ofLine line).effect session
      let later := effect now.2.2 lines
      (now.1 ++ later.1, now.2.1 ++ later.2.1, later.2.2) := by
  rw [effect, dialogue]
  dsimp only
  rw [if_neg (by simp [h])]
  rcases Command.ofLine_cases line with ⟨hstops, -⟩ | ⟨hline, -⟩ | ⟨hline, -⟩
  · rw [h] at hstops
    cases hstops
  all_goals
    rw [hline]
    simp [Command.effect, Command.perform, Command.reply, effect, String.join_cons]

end Prompt

namespace Session

/-- What runs of texts one after another come to. -/
def effects (session : Session) (sources : List String) : String × String × Session :=
  let rs := session.runs sources
  (String.join (rs.map (·.1.out)), String.join (rs.map (·.1.err)),
    sources.foldl (fun session source => (session.run source).2) session)

theorem effects_cons (session : Session) (source : String) (sources : List String) :
    session.effects (source :: sources) =
      let now := session.effect source
      let later := now.2.2.effects sources
      (now.1 ++ later.1, now.2.1 ++ later.2.1, later.2.2) := by
  simp [effects, effect, runs, String.join_cons]

end Session

open Prompt (heard)

theorem effect_dialogue (session : Session) (lines : List String) :
    Prompt.effect session lines = session.effects ((heard lines).filter fun line => ¬ Overlooked line) := by
  induction lines generalizing session with
  | nil => rfl
  | cons line lines ih =>
    cases h : (Command.ofLine line).stops with
    | true =>
      -- nothing behind a line that leaves is heard
      rw [Prompt.effect_of_stops h, heard, List.takeWhile_cons_of_neg (by simp [h])]
      rfl
    | false =>
      have hheard : heard (line :: lines) = line :: heard lines := List.takeWhile_cons_of_pos (by simp [h])
      rw [Prompt.effect_cons h, effect_ofLine h, hheard]
      by_cases ho : Overlooked line
      · rw [if_pos ho, List.filter_cons_of_neg (by simp [ho]), ← ih session]
        simp only [String.empty_append]
      · rw [if_neg ho, List.filter_cons_of_pos (by simp [ho]), Session.effects_cons]
        simp only [ih]

/-- A line whose bare text is no command does not leave, and does what a run of it does unless it is overlooked: then it
does nothing, where a run would complain. So a dialogue does what runs of its lines do, up to one that leaves, but for
the lines that are overlooked. -/
theorem prompt_faithful (session : Session) :
    (∀ line, trim line ≠ "exit" → trim line ≠ "EOF" → (Command.ofLine line).stops = false ∧
      ((Command.ofLine line).effect session = session.effect line ↔ ¬ Overlooked line) ∧
      (Overlooked line → (Command.ofLine line).effect session = ("", "", session) ∧
        (session.run line).1.status? = some ⟨true, false⟩ ∧ (session.run line).1.err ≠ "")) ∧
      (∀ lines, Prompt.effect session lines = session.effects ((heard lines).filter fun line => ¬ Overlooked line)) ∧
      ∀ lines, (∀ line ∈ heard lines, ¬ Overlooked line) → Prompt.effect session lines = session.effects (heard lines) := by
  refine ⟨fun line hexit hend => ?_, effect_dialogue session, fun lines h => ?_⟩
  · have hstops : (Command.ofLine line).stops = false := by
      rcases Command.ofLine_cases line with ⟨-, htrim⟩ | ⟨hline, -⟩ | ⟨hline, -⟩
      · exact absurd htrim (not_or.mpr ⟨hexit, hend⟩)
      · rw [hline]
        rfl
      · rw [hline]
        rfl
    rw [effect_ofLine hstops]
    refine ⟨hstops, ?_, fun ho => ?_⟩
    · by_cases ho : Overlooked line
      · have hrun := run_of_overlooked session ho
        rw [if_pos ho]
        exact iff_of_false (fun he => hrun.2.2.1 (congrArg (·.2.1) he).symm) (not_not_intro ho)
      · rw [if_neg ho]
        exact iff_of_true rfl ho
    · have hrun := run_of_overlooked session ho
      exact ⟨if_pos ho, hrun.1, hrun.2.2.1⟩
  · rw [effect_dialogue, List.filter_eq_self.mpr fun line hline => by simp [h line hline]]

theorem prompt_faithful_leaving :
    let session := Session.start .descent 0
    let lines := ["var exit = \"a\";", "\t", "print exit", " exit ; ", "print exit;", "exit ", "print exit;"]
    heard lines = ["var exit = \"a\";", "\t", "print exit", " exit ; ", "print exit;"] ∧
      Prompt.effect session lines =
        session.effects ["var exit = \"a\";", "\t", "print exit", " exit ; ", "print exit;"] ∧
      (Command.ofLine " exit ; ").effect session = session.effect " exit ; " := by
  intro session lines
  have hheard : heard lines = ["var exit = \"a\";", "\t", "print exit", " exit ; ", "print exit;"] := by decide +kernel
  have hkept : ∀ line ∈ heard lines, ¬ Overlooked line := by
    rw [hheard]
    decide +kernel
  obtain ⟨hline, -, hlines⟩ := prompt_faithful session
  exact ⟨hheard, hheard ▸ hlines lines hkept,
    (hline " exit ; " (by decide +kernel) (by decide +kernel)).2.1.mpr (by decide +kernel)⟩

theorem blank_line_passed_over :
    let session := Session.start .descent 0
    let line := "\u00a0"
    trim line ≠ "exit" ∧ trim line ≠ "EOF" ∧ (Command.ofLine line).effect session = ("", "", session) ∧
      session.effect line = ("", "[line 1] Error: Unexpected character: \u00a0\n", session) := by
  decide +kernel

end Lox
