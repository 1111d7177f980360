import Lox.Proofs.Joining.Readings
import Lox.Proofs.Scoping.Lexical

namespace Lox

namespace Run

variable {s : Settings}

theorem interpret_append (ns ns' : List Node) (m : Machine) : interpret s (ns ++ ns') m =
    match interpret s ns m with
    | (.finished, m) => interpret s ns' m
    | r => r := by
  have hfailed : ∀ e m, failed s e m = (.failed e, (failed s e m).2) := fun e m => Prod.ext (failed_fst s e m) rfl
  induction ns generalizing m with
  | nil => rfl
  | cons n ns ih =>
    rw [List.cons_append, interpret, interpret]
    split
    · exact ih _
    · rw [hfailed]
    · rw [hfailed]
    · rfl
    · rfl

end Run

namespace Session

variable {session : Session} {s : String} {sources : List String}

theorem run_within (f : Int → Int) {m : Machine} (hm : m.env = .start session.globals)
    (hread : (session.frontEnd.read s).diagnostics = [])
    (hdeep : ∀ e ∈ (session.run s).1.runtimeError?, e.fault = .nestingTooDeep → e.token.line ≠ 0) :
    let r := interpret session.settings (Node.relineAll f (session.frontEnd.read s).statements) m
    Outcome.ended r.1 = (session.run s).1.outcome.reline f ∧ r.2.printed = m.printed ++ (session.run s).1.printed ∧
      r.2.env = .start (session.run s).2.globals ∧ (session.run s).2.frontEnd = session.frontEnd ∧
      (session.run s).2.settings = session.settings := by
  obtain ⟨before, hrun⟩ := run_of_nil hread
  obtain ⟨notes, houtcome, hprinted, hglobals⟩ := execute_eq session before (session.frontEnd.read s).statements
  rw [← hrun] at houtcome hprinted hglobals
  have hdeep' : ∀ e, (interpret session.settings (session.frontEnd.read s).statements
      ⟨.start session.globals, #[], notes⟩).1 = .failed e → e.fault = .nestingTooDeep → e.token.line ≠ 0 := by
    intro e he
    exact hdeep e (by rw [Report.runtimeError?, houtcome, he]; rfl)
  have hstart : Machine.Alike m.printed ⟨.start session.globals, #[], notes⟩ m := ⟨hm.symm, by simp⟩
  obtain ⟨hending, henv, hprint⟩ := Run.interpret_relines (f := f) ⟨rfl, rfl⟩ _ hstart (.inr hdeep')
  have hscoped : Scoped session.settings (session.frontEnd.read s).statements session.globals
      ⟨.start session.globals, #[], notes⟩ := scoped_of_tidy (statements_tidy session.frontEnd s) rfl
  dsimp only
  refine ⟨?_, ?_, ?_, by rw [hrun]; rfl, by rw [hrun]; rfl⟩
  · rw [hending, houtcome]
    rfl
  · rw [hprint, hprinted]
  · rw [← henv, hglobals]
    exact congrArg (Env.mk · _) hscoped.left.1

theorem interpret_joined (g : Nat → Int → Int) {m : Machine} (hm : m.env = .start session.globals)
    (hread : ∀ s ∈ sources, (session.frontEnd.read s).diagnostics = [])
    (hends : ∀ r ∈ session.runs sources, r.1.status? ≠ none)
    (hdeep : ∀ r ∈ session.runs sources, ∀ e ∈ r.1.runtimeError?, e.fault = .nestingTooDeep → e.token.line ≠ 0) :
    let rs := session.runs sources
    let k := rs.findIdx (·.1.runtimeError?.isSome)
    let r := interpret session.settings
      (sources.mapIdx fun i s => Node.relineAll (g i) (session.frontEnd.read s).statements).flatten m
    Outcome.ended r.1 = rs[k]?.elim (.ended .finished) (fun r => r.1.outcome.reline (g k)) ∧
      r.2.printed.toList = m.printed.toList ++ (rs.take (k + 1)).flatMap (·.1.printed.toList) ∧
      r.2.env.globals = ((rs.take (k + 1)).map (·.2.globals)).getLastD session.globals := by
  induction sources generalizing session g m with
  | nil => exact ⟨rfl, by simp [runs, interpret], congrArg Env.globals hm⟩
  | cons s sources ih =>
    obtain ⟨hs, hsources⟩ := List.forall_mem_cons.mp hread
    rw [runs] at hends hdeep ⊢
    obtain ⟨hends₁, hends⟩ := List.forall_mem_cons.mp hends
    obtain ⟨hdeep₁, hdeep⟩ := List.forall_mem_cons.mp hdeep
    obtain ⟨houtcome, hprinted, henv, hfrontEnd, hsettings⟩ := run_within (g 0) hm hs hdeep₁
    rw [List.mapIdx_cons, List.flatten_cons, Run.interpret_append]
    generalize interpret session.settings (Node.relineAll (g 0) (session.frontEnd.read s).statements) m = r
      at houtcome hprinted henv
    generalize session.run s = run at hends₁ hends hdeep houtcome hprinted henv hfrontEnd hsettings
    obtain ⟨ending, m'⟩ := r
    obtain ⟨⟨outcome, printed, notes⟩, ⟨f, settings, globals⟩⟩ := run
    dsimp only at houtcome hprinted henv hfrontEnd hsettings
    subst hfrontEnd hsettings
    cases outcome with
    | rejected ds => cases houtcome
    | ended e =>
      obtain rfl : ending = e.reline (g 0) := Outcome.ended.inj houtcome
      cases e with
      | finished =>
        let session' : Session := ⟨session.frontEnd, session.settings, globals⟩
        have ih := @ih session' (fun i => g (i + 1)) m' henv hsources hends hdeep
        obtain ⟨houtcome', hprinted', hglobals'⟩ := ih
        intro rs k r
        have hk : k = (session'.runs sources).findIdx (·.1.runtimeError?.isSome) + 1 := by
          simp only [k, rs, List.findIdx_cons]
          rfl
        rw [hk]
        refine ⟨houtcome', ?_, ?_⟩
        · rw [hprinted, Array.toList_append, List.append_assoc] at hprinted'
          exact hprinted'
        · rw [List.take_succ_cons, List.map_cons, List.getLastD_cons]
          exact hglobals'
      | failed e =>
        intro rs k r
        have hk : k = 0 := by
          simp only [k, rs, List.findIdx_cons]
          rfl
        rw [hk]
        refine ⟨rfl, ?_, congrArg Env.globals henv⟩
        change m'.printed.toList = m.printed.toList ++ (printed.toList ++ [])
        rw [hprinted, Array.toList_append, List.append_nil]
      | misfit | outOfTurns => exact absurd rfl hends₁

end Session

theorem asLines_flatMap {α : Type} (texts : α → List String) (as : List α) :
    asLines (as.flatMap texts) = String.join (as.map fun a => asLines (texts a)) := by
  induction as with
  | nil => rfl
  | cons a as ih =>
    rw [List.flatMap_cons, asLines, List.map_append, String.join_append, List.map_cons, String.join_cons, ← ih]
    rfl

/-- Texts that read by themselves read when they are joined, as their statements one after another on later lines. The
run of the whole then does what runs of the texts one after another do up to the first that stops at a fault, and stops
at that fault on its later line. -/
theorem joined_runs (f : FrontEnd) (sources : List String) (hread : ∀ s ∈ sources, (f.read s).diagnostics = [])
    (hdeep : ∀ s ∈ sources, ¬ (Reading.descent s).Deep) :
    (∀ f' ∈ [FrontEnd.descent, f], (f'.read (joined sources)).diagnostics = [] ∧
      (f'.read (joined sources)).statements = joinedStatements sources fun s => (f'.read s).statements) ∧
    ∀ session : Session, session.frontEnd = f →
      let rs := session.runs sources
      let k := rs.findIdx (·.1.runtimeError?.isSome)
      let whole := session.run (joined sources)
      (∀ r ∈ rs, r.1.status? ≠ none) →
      (∀ r ∈ rs, ∀ e ∈ r.1.runtimeError?, e.fault = .nestingTooDeep → e.token.line ≠ 0) →
      whole.1.out = String.join ((rs.take (k + 1)).map (·.1.out)) ∧
        whole.2.globals = ((rs.take (k + 1)).map (·.2.globals)).getLastD session.globals ∧
        whole.1.outcome = rs[k]?.elim (.ended .finished) (·.1.outcome.reline (· + newlinesBefore sources k)) := by
  refine ⟨?_, fun session hf => ?_⟩
  · intro f' hf'
    refine Reading.read_joined fun s hs => ?_
    simp only [List.mem_cons, List.not_mem_nil, or_false] at hf'
    rcases hf' with rfl | rfl
    · exact (Reading.descent_of_nil (hread s hs) (hdeep s hs)).1
    · exact hread s hs
  · subst hf
    intro rs k whole hends hlines
    obtain ⟨hnil, hstatements⟩ := Reading.read_joined hread
    obtain ⟨before, hrun⟩ := Session.run_of_nil hnil
    obtain ⟨notes, houtcome, hprinted, hglobals⟩ :=
      Session.execute_eq session before (session.frontEnd.read (joined sources)).statements
    obtain ⟨houtcome', hprinted', hglobals'⟩ := Session.interpret_joined
      (fun i => (· + (newlinesBefore sources i : Int))) (m := ⟨.start session.globals, #[], notes⟩) rfl hread hends hlines
    rw [← hrun, hstatements] at houtcome hprinted hglobals
    refine ⟨?_, hglobals.trans hglobals', houtcome.trans houtcome'⟩
    rw [Report.out, hprinted]
    exact (congrArg asLines hprinted').trans (asLines_flatMap _ _)

theorem joined_runs_fault :
    let sources := ["var a = \"b\"; // c", "{ print a; }\n-a;", "print nil;"]
    let session : Session := ⟨.ascent, .ofVerbosity 0, [(.text "a", .nil)]⟩
    let rs := session.runs sources
    let whole := session.run (joined sources)
    (∀ s ∈ sources, (FrontEnd.ascent.read s).diagnostics = []) ∧ (∀ s ∈ sources, ¬ (Reading.descent s).Deep) ∧
      (∀ r ∈ rs, r.1.status? ≠ none) ∧
      (∀ r ∈ rs, ∀ e ∈ r.1.runtimeError?, e.fault = .nestingTooDeep → e.token.line ≠ 0) ∧
      whole.1.out = "b\n" ∧ whole.2.globals = [(.text "a", .text "b")] ∧
      whole.1.outcome = .ended (.failed ⟨⟨.minus, .text "-", .nil, 3⟩, .operandNotNumber⟩) := by
  intro sources session rs whole
  have hread : ∀ s ∈ sources, (FrontEnd.ascent.read s).diagnostics = [] := by decide +kernel
  have hdeep : ∀ s ∈ sources, ¬ (Reading.descent s).Deep := by decide +kernel
  have hends : ∀ r ∈ rs, r.1.status? ≠ none := by decide +kernel
  have hlines : ∀ r ∈ rs, ∀ e ∈ r.1.runtimeError?, e.fault = .nestingTooDeep → e.token.line ≠ 0 := by decide +kernel
  refine ⟨hread, hdeep, hends, hlines, ?_⟩
  obtain ⟨hout, hglobals, houtcome⟩ := (joined_runs .ascent sources hread hdeep).2 session rfl hends hlines
  exact ⟨hout.trans (by decide +kernel), hglobals.trans (by decide +kernel), houtcome.trans (by decide +kernel)⟩

end Lox
