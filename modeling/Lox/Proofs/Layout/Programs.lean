import Lox.Proofs.Agreement
import Lox.Proofs.Layout.Phrases
import Lox.Proofs.Layout.Rules

namespace Lox

open Ascent (Phrase)
open Grammar

variable {f : Int → Int}

/-- The texts have the same tokens, but for the lines. -/
def SameTokens (source source' : String) : Prop :=
  (scan source).tokens.map (·.reline unlined) = (scan source').tokens.map (·.reline unlined)

instance (source source' : String) : Decidable (SameTokens source source') :=
  inferInstanceAs (Decidable (_ = _))

namespace SameTokens

variable {source source' : String}

theorem symm (h : SameTokens source source') : SameTokens source' source :=
  Eq.symm h

theorem descent (h : SameTokens source source') :
    Node.relineAll unlined (Reading.descent source).statements = Node.relineAll unlined (Reading.descent source').statements ∧
      ∃ ds ds', (Reading.descent source).diagnostics = (scan source).diagnostics ++ ds ∧
        (Reading.descent source').diagnostics = (scan source').diagnostics ++ ds' ∧
        ds.map (·.reline unlined) = ds'.map (·.reline unlined) := by
  obtain ⟨ns, c, hc, hread⟩ := Reading.exists_descent source
  obtain ⟨ns', c', hc', hread'⟩ := Reading.exists_descent source'
  have hprogram := Descent.program_reline unlined Descent.depthLimit (scan source).tokens
  have hprogram' := Descent.program_reline unlined Descent.depthLimit (scan source').tokens
  rw [hc] at hprogram
  rw [← show _ = _ from h, hprogram, hc'] at hprogram'
  simp only [Parse.relined, EStateM.Result.ok.injEq, Cursor.reline, Cursor.mk.injEq] at hprogram'
  obtain ⟨hns, -, -, hcs, -⟩ := hprogram'
  refine ⟨?_, _, _, congrArg Reading.diagnostics hread, congrArg Reading.diagnostics hread', ?_⟩
  · rw [hread, hread', Node.relineAll_eq_map, Node.relineAll_eq_map]
    exact hns
  · have hlists := congrArg (fun cs : Array Complaint => cs.toList.map Complaint.diagnostic) hcs
    simpa [Function.comp_def, Complaint.diagnostic_reline] using hlists

theorem statements {g g' : FrontEnd} (h : SameTokens source source') (hd : (g.read source).diagnostics = [])
    (hd' : (g'.read source').diagnostics = []) :
    Node.relineAll unlined (g.read source).statements = Node.relineAll unlined (g'.read source').statements := by
  obtain ⟨ps, hps, hns⟩ := Reading.exists_phrases hd
  obtain ⟨ps', hps', hns'⟩ := Reading.exists_phrases hd'
  have hleft := hps.reline (f := unlined)
  have hright := hps'.reline (f := unlined)
  rw [← show _ = _ from h] at hright
  rw [Ascent.scan_tokens, List.map_append] at hleft hright
  rw [hns, hns', ← Phrase.nodes_reline, ← Phrase.nodes_reline, hleft.unique hright]

end SameTokens

/-- Texts with the same tokens on other lines give the same statements and the same diagnostics but for the lines, those
of the scanner apart. Where nothing is wrong with them they print the same and leave the same globals, and both end
well or both in the same fault at tokens that are the same but for the line. -/
theorem layout_irrelevant (source source' : String) (h : SameTokens source source') :
    Node.relineAll unlined (Reading.descent source).statements = Node.relineAll unlined (Reading.descent source').statements ∧
      (∃ ds ds', (Reading.descent source).diagnostics = (scan source).diagnostics ++ ds ∧
        (Reading.descent source').diagnostics = (scan source').diagnostics ++ ds' ∧
        ds.map (·.reline unlined) = ds'.map (·.reline unlined)) ∧
      ∀ session session' : Session, session.settings.Alike session'.settings → session.globals = session'.globals →
        (session.frontEnd.read source).diagnostics = [] → (session'.frontEnd.read source').diagnostics = [] →
        let r := session.run source
        let r' := session'.run source'
        r.1.out = r'.1.out ∧ r.2.globals = r'.2.globals ∧
          r.1.outcome.reline unlined = r'.1.outcome.reline unlined := by
  refine ⟨h.descent.1, h.descent.2, fun session session' hs hg hd hd' => ?_⟩
  obtain ⟨notes, hrun⟩ := Session.run_of_nil hd
  obtain ⟨notes', hrun'⟩ := Session.run_of_nil hd'
  -- both runs are compared with one on statements that all stand on the same line
  obtain ⟨houtcome, hprinted, hglobals⟩ := Session.execute_relines (f := unlined) session session ⟨rfl, rfl⟩ rfl
    notes #[] (session.frontEnd.read source).statements (.inl rfl)
  obtain ⟨houtcome', hprinted', hglobals'⟩ := Session.execute_relines (f := unlined) session' session
    ⟨hs.1.symm, hs.2.symm⟩ hg.symm notes' #[] (session'.frontEnd.read source').statements (.inl rfl)
  rw [← h.statements hd hd'] at houtcome' hprinted' hglobals'
  dsimp only
  rw [hrun, hrun', Report.out, Report.out, hprinted, hprinted', hglobals, hglobals', ← houtcome, houtcome']
  exact ⟨rfl, rfl, rfl⟩

theorem layout_irrelevant_fault :
    let source := "print \"a\"; print -\"b\";"
    let source' := "print\n\"a\"; // and then\n\nprint -\n\"b\";\n"
    SameTokens source source' ∧ (Reading.descent source).diagnostics = [] ∧ (Reading.ascent source').diagnostics = [] ∧
      ∀ globals, let r := (Session.mk .descent (.ofVerbosity 0) globals).run source
        let r' := (Session.mk .ascent (.ofVerbosity 4) globals).run source'
        r.1.out = r'.1.out ∧ r.2.globals = r'.2.globals ∧ r.1.outcome.reline unlined = r'.1.outcome.reline unlined := by
  intro source source'
  have h : SameTokens source source' := by decide +kernel
  have hd : (Reading.descent source).diagnostics = [] := by decide +kernel
  have hd' : (Reading.ascent source').diagnostics = [] := by decide +kernel
  refine ⟨h, hd, hd', fun globals => ?_⟩
  exact (layout_irrelevant source source' h).2.2 ⟨.descent, .ofVerbosity 0, globals⟩ ⟨.ascent, .ofVerbosity 4, globals⟩
    ⟨rfl, rfl⟩ rfl hd hd'

end Lox
