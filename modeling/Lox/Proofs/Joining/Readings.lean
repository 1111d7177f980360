import Lox.Proofs.Agreement
import Lox.Proofs.Joining.Rules
import Lox.Proofs.Joining.Texts
import Lox.Proofs.Layout.Rules

namespace Lox

open Ascent (Phrase tokensFrom)
open Descent (Accepting Whole)
open Grammar

theorem map_mapIdx {α β γ : Type} (g : β → γ) (f : Nat → α → β) (as : List α) :
    (as.mapIdx f).map g = as.mapIdx fun i a => g (f i a) :=
  List.ext_getElem (by simp) (by simp)

/-- Statements of each of some texts, on the lines that they have when the texts are joined. -/
def joinedStatements (sources : List String) (statements : String → List Node) : List Node :=
  (sources.mapIdx fun i s => Node.relineAll (· + newlinesBefore sources i) (statements s)).flatten

theorem joinedStatements_congr {sources : List String} {statements statements' : String → List Node}
    (h : ∀ s ∈ sources, statements s = statements' s) :
    joinedStatements sources statements = joinedStatements sources statements' := by
  refine congrArg List.flatten (List.ext_getElem (by simp) fun i hi _ => ?_)
  rw [List.length_mapIdx] at hi
  rw [List.getElem_mapIdx, List.getElem_mapIdx, h _ (List.getElem_mem hi)]

namespace Reading

variable {source : String} {sources : List String} {ps : List Phrase}

theorem accepting_of_nil (h : (descent source).diagnostics = []) :
    Accepting Descent.depthLimit (scan source).tokens (descent source).statements := by
  obtain ⟨ns, c, hc, heq⟩ := exists_descent source
  rw [heq] at h ⊢
  have hcs := List.map_eq_nil_iff.mp (List.append_eq_nil_iff.mp h).2
  exact ⟨c, hc, Array.toList_eq_nil_iff.mp hcs⟩

theorem whole_of_nil (f : Int → Int) (h : (descent source).diagnostics = []) :
    Whole Descent.depthLimit ((tokensFrom 1 source.toList).map (·.reline f)) (Node.relineAll f (descent source).statements) := by
  obtain ⟨c, hc, hcs⟩ := accepting_of_nil h
  have hprogram := Descent.program_reline f Descent.depthLimit (scan source).tokens
  rw [hc] at hprogram
  refine ⟨fun t ht => ?_, (endToken (1 + List.count '\n' source.toList : Nat)).reline f, rfl, c.reline f, ?_, ?_⟩
  · obtain ⟨u, hu, rfl⟩ := List.mem_map.mp ht
    have hu : u.kind ≠ .eof := Ascent.kind_ne_eof_of_mem_tokensFrom hu
    exact hu
  · rw [Node.relineAll_eq_map, ← List.map_singleton, ← List.map_append, ← Ascent.scan_tokens]
    exact hprogram
  · simp [Cursor.reline, hcs]

theorem descent_joined (h : ∀ s ∈ sources, (descent s).diagnostics = []) : (descent (joined sources)).diagnostics = [] ∧
    (descent (joined sources)).statements = joinedStatements sources fun s => (descent s).statements := by
  obtain ⟨hclean, e, he, htokens⟩ := scan_joined fun s hs => (lenient_of_nil (h s hs)).1
  have hpieces : ∀ p ∈ sources.mapIdx fun i s => ((tokensFrom 1 s.toList).map (·.reline (· + newlinesBefore sources i)),
      Node.relineAll (· + newlinesBefore sources i) (descent s).statements), Whole Descent.depthLimit p.1 p.2 := by
    intro p hp
    obtain ⟨i, hi, rfl⟩ := List.mem_mapIdx.mp hp
    exact whole_of_nil _ (h _ (List.getElem_mem hi))
  obtain ⟨d, hd, hcs⟩ := Descent.accepting_joined hpieces he
  rw [map_mapIdx, map_mapIdx] at hd
  obtain ⟨ns, c, hc, heq⟩ := exists_descent (joined sources)
  rw [htokens] at hc
  cases hd.symm.trans hc
  rw [heq, hclean, hcs]
  exact ⟨rfl, rfl⟩

def phrasesOf (source : String) : List Phrase :=
  (Ascent.phrases source).toOption.getD []

theorem Derived.eq_phrasesOf (h : Derived source ps) : ps = phrasesOf source := by
  rw [phrasesOf, Ascent.phrases_eq_ok_iff.mpr h]
  rfl

theorem program_joined (h : ∀ s ∈ sources, (scan s).diagnostics = [] ∧ Program false (scan s).tokens (phrasesOf s)) :
    (scan (joined sources)).diagnostics = [] ∧ Program false (scan (joined sources)).tokens
      (sources.mapIdx fun i s => Phrase.relineAll (· + newlinesBefore sources i) (phrasesOf s)).flatten := by
  obtain ⟨hclean, e, he, htokens⟩ := scan_joined fun s hs => (h s hs).1
  have hpieces : ∀ p ∈ sources.mapIdx fun i s => ((tokensFrom 1 s.toList).map (·.reline (· + newlinesBefore sources i)),
      Phrase.relineAll (· + newlinesBefore sources i) (phrasesOf s)), ∃ e, Program false (p.1 ++ [e]) p.2 := by
    intro p hp
    obtain ⟨i, hi, rfl⟩ := List.mem_mapIdx.mp hp
    have hprogram := (h _ (List.getElem_mem hi)).2.reline (f := (· + (newlinesBefore sources i : Int)))
    rw [Ascent.scan_tokens, List.map_append] at hprogram
    exact ⟨_, hprogram⟩
  have hprogram := Program.joined he hpieces
  rw [map_mapIdx, map_mapIdx, ← htokens] at hprogram
  exact ⟨hclean, hprogram⟩

theorem ascent_joined (h : ∀ s ∈ sources, (ascent s).diagnostics = []) : (ascent (joined sources)).diagnostics = [] ∧
    (ascent (joined sources)).statements = joinedStatements sources fun s => (ascent s).statements := by
  have hderived : ∀ s ∈ sources, Derived s (phrasesOf s) ∧ (ascent s).OfPhrases (phrasesOf s) := by
    intro s hs
    obtain ⟨ps, hps, hread⟩ := exists_derived (f := .ascent) (h s hs)
    obtain rfl := hps.eq_phrasesOf
    exact ⟨hps, hread⟩
  obtain ⟨hclean, hprogram⟩ := program_joined fun s hs =>
    ⟨(hderived s hs).1.1, (program_of_ofPhrases (h s hs) (hderived s hs).1 (hderived s hs).2).1⟩
  obtain ⟨hlenient, hmisassigned⟩ := Program.iff_lenient.mp hprogram
  -- the whole is no deeper than the deepest of the texts
  have hheight : Phrase.heightAll (sources.mapIdx fun i s =>
      Phrase.relineAll (· + newlinesBefore sources i) (phrasesOf s)).flatten ≤ Ascent.heightLimit := by
    refine Phrase.heightAll_le_iff.mpr fun p hp => ?_
    obtain ⟨ps, hps, hp⟩ := List.mem_flatten.mp hp
    obtain ⟨i, hi, rfl⟩ := List.mem_mapIdx.mp hps
    have hs := List.getElem_mem hi
    have hle := heightAll_le (not_deep_of_nil (h _ hs)) (hderived _ hs).1
    rw [← Phrase.heightAll_reline (· + (newlinesBefore sources i : Int))] at hle
    exact Phrase.heightAll_le_iff.mp hle p hp
  obtain ⟨hstatements, hdiagnostics⟩ := ascent_ofPhrases_of_le hheight ⟨hclean, hlenient⟩
  refine ⟨by rw [hdiagnostics, hmisassigned, List.map_nil], ?_⟩
  rw [hstatements, Phrase.nodes_eq_map, List.map_flatten, map_mapIdx,
    joinedStatements_congr fun s hs => (hderived s hs).2.1, joinedStatements]
  simp only [← Phrase.nodes_eq_map, Phrase.nodes_reline]

theorem descent_of_nil {f : FrontEnd} (h : (f.read source).diagnostics = []) (hd : ¬ (descent source).Deep) :
    (descent source).diagnostics = [] ∧ (descent source).statements = (f.read source).statements := by
  obtain ⟨ps, hps, hread⟩ := exists_derived h
  have hdescent := descent_ofPhrases hd hps
  have hnil := hread.2.symm.trans h
  exact ⟨hdescent.2.trans hnil, hdescent.1.trans hread.1.symm⟩

theorem read_joined {f : FrontEnd} (h : ∀ s ∈ sources, (f.read s).diagnostics = []) :
    (f.read (joined sources)).diagnostics = [] ∧
      (f.read (joined sources)).statements = joinedStatements sources fun s => (f.read s).statements := by
  cases f with
  | descent => exact descent_joined h
  | ascent => exact ascent_joined h

end Reading

end Lox
