import Lox.Proofs.Ascent.Readers
import Lox.Proofs.Descent.Language
import Lox.Proofs.Layout.Runs

namespace Lox

open Ascent (Phrase)
open Grammar Parse

namespace Reading

/-- The limit of nesting has stopped a reading. -/
def Deep (r : Reading) : Prop :=
  ∃ d ∈ r.diagnostics, d.problem = .nestingTooDeep

instance (r : Reading) : Decidable r.Deep :=
  inferInstanceAs (Decidable (∃ d ∈ r.diagnostics, d.problem = .nestingTooDeep))

/-- From the top down nothing is wrong with a text but targets of assignments. -/
def Lenient (source : String) : Prop :=
  (scan source).diagnostics = [] ∧ ∀ d ∈ (descent source).diagnostics, d.problem = .invalidAssignmentTarget

instance (source : String) : Decidable (Lenient source) :=
  inferInstanceAs (Decidable (_ ∧ _))

def Derived (source : String) (ps : List Phrase) : Prop :=
  (scan source).diagnostics = [] ∧ Program true (scan source).tokens ps

def OfPhrases (r : Reading) (ps : List Phrase) : Prop :=
  r.statements = Phrase.nodes ps ∧
    r.diagnostics = (Phrase.misassignedAll ps).map fun t => t.diagnostic .invalidAssignmentTarget

section

variable {source : String} {ps : List Phrase}

theorem exists_descent (source : String) : ∃ ns c, Descent.program Descent.depthLimit (scan source).tokens = .ok ns c ∧
    descent source = ⟨ns, (scan source).diagnostics ++ c.complaints.toList.map Complaint.diagnostic, c.events⟩ := by
  have hend : ∃ t ∈ (scan source).tokens, t.kind = .eof := by
    rw [Ascent.scan_tokens]
    exact ⟨_, List.mem_append_right _ (List.mem_singleton.mpr rfl), rfl⟩
  obtain ⟨ns, c, hc⟩ := Descent.program_ends (by decide : 0 < Descent.depthLimit) hend
  refine ⟨ns, c, hc, ?_⟩
  rw [descent]
  simp only [hc]

theorem descent_ofPhrases (hd : ¬ (descent source).Deep) (h : Derived source ps) : (descent source).OfPhrases ps := by
  obtain ⟨hclean, e, he, hderives⟩ := h
  obtain ⟨ns, c, hc, heq⟩ := exists_descent source
  rcases Descent.program_of_derives hderives he with (⟨d, hdeep⟩ | ⟨-, x, hx, hp⟩) | ⟨d, hd', -, cs, hcs, hps, hmap⟩
  · rw [hc] at hdeep
    cases hdeep
  · rw [hc] at hx
    refine absurd ⟨x.diagnostic, ?_, hp⟩ hd
    rw [heq]
    exact List.mem_append_right _ (List.mem_map_of_mem hx)
  · rw [hc] at hd'
    cases hd'
    rw [heq]
    refine ⟨rfl, ?_⟩
    have hcs : c.complaints.toList = cs := hcs
    have hdiagnostic : ∀ x ∈ cs, x.diagnostic = x.token.diagnostic .invalidAssignmentTarget := by
      intro x hx
      rw [Complaint.diagnostic, hps x hx]
    dsimp only
    rw [hclean, hcs, ← hmap, List.nil_append, List.map_map]
    exact List.map_congr_left hdiagnostic

theorem derived_of_lenient (h : Lenient source) : ∃ ps, Derived source ps := by
  obtain ⟨hclean, hps⟩ := h
  obtain ⟨ns, c, hc, heq⟩ := exists_descent source
  rw [heq] at hps
  have hcs : ∀ x ∈ c.complaints.toList, x.problem = .invalidAssignmentTarget := fun x hx =>
    hps x.diagnostic (List.mem_append_right _ (List.mem_map_of_mem hx))
  obtain ⟨ps, t, us, hd, ht, -, -⟩ := Descent.derives_of_program hc hcs
  have hts : ∀ t ∈ Ascent.tokensFrom 1 source.toList, t.kind ≠ .eof := fun t ht => Ascent.kind_ne_eof_of_mem_tokensFrom ht
  rw [Ascent.scan_tokens] at hd
  refine ⟨ps, hclean, ?_⟩
  rw [Ascent.scan_tokens]
  exact Program.of_derives hts hd ht

theorem lenient_of_ofPhrases (h : Derived source ps) (hps : (descent source).OfPhrases ps) : Lenient source := by
  refine ⟨h.1, fun d hd => ?_⟩
  rw [hps.2] at hd
  obtain ⟨t, -, rfl⟩ := List.mem_map.mp hd
  rfl

theorem ascent_ofPhrases_of_le (hps : Phrase.heightAll ps ≤ Ascent.heightLimit) (h : Derived source ps) :
    (ascent source).OfPhrases ps := by
  obtain ⟨line, hprogram⟩ := Ascent.program_of_ok (Ascent.phrases_eq_ok_iff.mpr h)
  rw [ascent, ascentBy, hprogram, if_neg (Nat.not_lt.mpr hps)]
  exact ⟨rfl, rfl⟩

theorem heightAll_le (ha : ¬ (ascent source).Deep) (h : Derived source ps) : Phrase.heightAll ps ≤ Ascent.heightLimit := by
  refine Nat.not_lt.mp fun hlt => ha ?_
  obtain ⟨line, hprogram⟩ := Ascent.program_of_ok (Ascent.phrases_eq_ok_iff.mpr h)
  rw [ascent, ascentBy, hprogram, if_pos hlt]
  exact ⟨_, List.mem_singleton.mpr rfl, rfl⟩

theorem ascent_ofPhrases (ha : ¬ (ascent source).Deep) (h : Derived source ps) : (ascent source).OfPhrases ps :=
  ascent_ofPhrases_of_le (heightAll_le ha h) h

theorem ascent_of_not_derived (h : ¬ ∃ ps, Derived source ps) :
    (ascent source).statements = [] ∧ ∃ d, (ascent source).diagnostics = [d] := by
  cases hphrases : Ascent.phrases source with
  | ok ps => exact absurd ⟨ps, Ascent.phrases_eq_ok_iff.mp hphrases⟩ h
  | error f =>
    rw [ascent, ascentBy, Ascent.program_of_error hphrases]
    exact ⟨rfl, _, rfl⟩

theorem lenient_of_nil (h : (descent source).diagnostics = []) : Lenient source := by
  obtain ⟨ns, c, -, heq⟩ := exists_descent source
  rw [heq] at h
  exact ⟨(List.append_eq_nil_iff.mp h).1, by simp [heq, h]⟩

theorem not_deep_of_nil {r : Reading} (h : r.diagnostics = []) : ¬ r.Deep := by
  rintro ⟨d, hd, -⟩
  rw [h] at hd
  cases hd

theorem program_of_ofPhrases {r : Reading} (h : r.diagnostics = []) (hps : Derived source ps) (hr : r.OfPhrases ps) :
    Program false (scan source).tokens ps ∧ r.statements = Phrase.nodes ps := by
  rw [hr.2] at h
  exact ⟨Program.iff_lenient.mpr ⟨hps.2, List.map_eq_nil_iff.mp h⟩, hr.1⟩

end

theorem exists_derived {f : FrontEnd} {source : String} (h : (f.read source).diagnostics = []) :
    ∃ ps, Derived source ps ∧ (f.read source).OfPhrases ps := by
  cases f with
  | descent =>
    change (descent source).diagnostics = [] at h
    obtain ⟨ps, hps⟩ := derived_of_lenient (lenient_of_nil h)
    exact ⟨ps, hps, descent_ofPhrases (not_deep_of_nil h) hps⟩
  | ascent =>
    change (ascent source).diagnostics = [] at h
    by_cases hps : ∃ ps, Derived source ps
    · obtain ⟨ps, hps⟩ := hps
      exact ⟨ps, hps, ascent_ofPhrases (not_deep_of_nil h) hps⟩
    · obtain ⟨-, d, hd⟩ := ascent_of_not_derived hps
      rw [h] at hd
      cases hd

theorem exists_phrases {f : FrontEnd} {source : String} (h : (f.read source).diagnostics = []) :
    ∃ ps, Program false (scan source).tokens ps ∧ (f.read source).statements = Phrase.nodes ps := by
  obtain ⟨ps, hps, hread⟩ := exists_derived h
  exact ⟨ps, program_of_ofPhrases h hps hread⟩

end Reading

namespace Session

/-- What is seen of a run: the exit code, unless it has no status, what is printed, and the globals behind it. -/
def seen (r : Report × Session) : Option Nat × String × Scope :=
  (r.1.status?.map Status.exitCode, r.1.out, r.2.globals)

variable {settings : Settings} {globals : Scope} {source : String} {f f' : FrontEnd}

theorem seen_execute (before before' : Array Note) (ns : List Node) :
    seen ((Session.mk f settings globals).execute before ns) = seen ((Session.mk f' settings globals).execute before' ns) := by
  obtain ⟨houtcome, hprinted, hglobals⟩ := execute_notes f f' settings globals before before' ns
  simp only [seen, Report.status?, Report.out, houtcome, hprinted, hglobals]

theorem seen_rejected {ds : List Diagnostic} {notes : Array Note} {session : Session} :
    seen (⟨.rejected ds, #[], notes⟩, session) = (some 65, "", session.globals) :=
  rfl

theorem seen_runReading {r r' : Reading} (h : r.diagnostics = [] ↔ r'.diagnostics = [])
    (hs : r'.diagnostics = [] → r.statements = r'.statements) :
    seen ((Session.mk f settings globals).runReading source r) =
      seen ((Session.mk f' settings globals).runReading source r') := by
  by_cases hd : r'.diagnostics = []
  · have hleft := h.mpr hd
    rw [runReading, runReading]
    dsimp only
    rw [if_pos hleft, if_pos hd, hs hd]
    exact seen_execute _ _ _
  · have hleft : r.diagnostics ≠ [] := fun he => hd (h.mp he)
    rw [runReading, runReading]
    dsimp only
    rw [if_neg hleft, if_neg hd, seen_rejected, seen_rejected]

end Session

/-- Unless a text is nested too deeply, it is faultless to a reader by the grammar exactly if it is so from the top
down, and where targets of assignments are all that is wrong, both read the same. Otherwise the reader gives one
diagnostic. -/
theorem readings_agree {parse : Ascent.Reader} (hparse : parse.Lawful) (source : String)
    (hd : ¬ (Reading.descent source).Deep) (ha : ¬ (Reading.ascentBy parse source).Deep) :
    ((Reading.ascentBy parse source).diagnostics = [] ↔ (Reading.descent source).diagnostics = []) ∧
      ((Reading.descent source).diagnostics = [] →
        (Reading.ascentBy parse source).statements = (Reading.descent source).statements) ∧
      (Reading.Lenient source → (Reading.ascentBy parse source).statements = (Reading.descent source).statements ∧
        (Reading.ascentBy parse source).diagnostics = (Reading.descent source).diagnostics) ∧
      (¬ Reading.Lenient source → (Reading.ascentBy parse source).statements = [] ∧
        ∃ d, (Reading.ascentBy parse source).diagnostics = [d]) ∧
      ∀ settings globals,
        Session.seen ((Session.mk .ascent settings globals).runReading source (Reading.ascentBy parse source)) =
          Session.seen ((Session.mk .descent settings globals).run source) := by
  obtain rfl := hparse.unique Ascent.parse_lawful
  change ¬ (Reading.ascent source).Deep at ha
  change ((Reading.ascent source).diagnostics = [] ↔ _) ∧ (_ → (Reading.ascent source).statements = _) ∧
    (_ → (Reading.ascent source).statements = _ ∧ (Reading.ascent source).diagnostics = _) ∧
    (_ → (Reading.ascent source).statements = [] ∧ ∃ d, (Reading.ascent source).diagnostics = [d]) ∧ _
  have hlenient : Reading.Lenient source → (Reading.ascent source).statements = (Reading.descent source).statements ∧
      (Reading.ascent source).diagnostics = (Reading.descent source).diagnostics := by
    intro h
    obtain ⟨ps, hps⟩ := Reading.derived_of_lenient h
    have hascent := Reading.ascent_ofPhrases ha hps
    have hdescent := Reading.descent_ofPhrases hd hps
    exact ⟨hascent.1.trans hdescent.1.symm, hascent.2.trans hdescent.2.symm⟩
  have hother : ¬ Reading.Lenient source → (Reading.ascent source).statements = [] ∧
      ∃ d, (Reading.ascent source).diagnostics = [d] := by
    intro h
    refine Reading.ascent_of_not_derived ?_
    rintro ⟨ps, hps⟩
    exact h (Reading.lenient_of_ofPhrases hps (Reading.descent_ofPhrases hd hps))
  have hiff : (Reading.ascent source).diagnostics = [] ↔ (Reading.descent source).diagnostics = [] := by
    constructor
    · intro h
      by_cases hl : Reading.Lenient source
      · rw [← (hlenient hl).2, h]
      · obtain ⟨-, d, hone⟩ := hother hl
        rw [h] at hone
        cases hone
    · intro h
      rw [(hlenient (Reading.lenient_of_nil h)).2, h]
  have hsame : (Reading.descent source).diagnostics = [] →
      (Reading.ascent source).statements = (Reading.descent source).statements :=
    fun h => (hlenient (Reading.lenient_of_nil h)).1
  exact ⟨hiff, hsame, hlenient, hother, fun settings globals => Session.seen_runReading hiff hsame⟩

theorem readings_agree_mistakes :
    let wrong := "for (var i = 0; i < 3; i = i + 1) if (i) print i; else (i) = 4; // five"
    let broken := "print 1 + ; \"two"
    (¬ (Reading.descent wrong).Deep ∧ ¬ (Reading.ascent wrong).Deep ∧ Reading.Lenient wrong ∧
      (Reading.descent wrong).diagnostics ≠ [] ∧
      (Reading.ascent wrong).statements = (Reading.descent wrong).statements ∧
      (Reading.ascent wrong).diagnostics = (Reading.descent wrong).diagnostics) ∧
    (¬ (Reading.descent broken).Deep ∧ ¬ (Reading.ascent broken).Deep ∧ ¬ Reading.Lenient broken ∧
      (Reading.ascent broken).statements = [] ∧ ∃ d, (Reading.ascent broken).diagnostics = [d]) := by
  intro wrong broken
  have hd : ¬ (Reading.descent wrong).Deep := by decide +kernel
  have ha : ¬ (Reading.ascent wrong).Deep := by decide +kernel
  have hl : Reading.Lenient wrong := by decide +kernel
  have hd' : ¬ (Reading.descent broken).Deep := by decide +kernel
  have ha' : ¬ (Reading.ascent broken).Deep := by decide +kernel
  have hl' : ¬ Reading.Lenient broken := by decide +kernel
  have hne : (Reading.descent wrong).diagnostics ≠ [] := by decide +kernel
  exact ⟨⟨hd, ha, hl, hne, (readings_agree Ascent.parse_lawful wrong hd ha).2.2.1 hl⟩,
    ⟨hd', ha', hl', (readings_agree Ascent.parse_lawful broken hd' ha').2.2.2.1 hl'⟩⟩

end Lox
