import Lox.Proofs.Soundness.Runs

namespace Lox

namespace Reporter

variable (r : Reporter)

def after (ds : List Diagnostic) : Reporter :=
  { r with diagnostics := r.diagnostics ++ ds.toArray, text := r.text ++ Diagnostic.lines ds }

theorem after_nil : r.after [] = r := by
  simp [after, Diagnostic.lines]

theorem after_append (ds ds' : List Diagnostic) : r.after (ds ++ ds') = (r.after ds).after ds' := by
  simp [after, Diagnostic.lines, String.append_assoc]

theorem after_singleton (d : Diagnostic) : r.after [d] = r.syntaxError d := by
  simp [after, syntaxError, Diagnostic.lines]

theorem foldl_syntaxError (ds : List Diagnostic) : ds.foldl syntaxError r = r.after ds := by
  induction ds generalizing r with
  | nil => exact r.after_nil.symm
  | cons d ds ih => rw [List.foldl_cons, ih, ← after_singleton, ← after_append, List.singleton_append]

theorem scanning_eq (source : String) : r.scanning source = r.after (scan source).diagnostics :=
  (scanning_eq_foldl source r).trans (r.foldl_syntaxError _)

theorem reading_eq (source : String) (f : FrontEnd) : r.reading source f = r.after (f.read source).diagnostics := by
  cases f with
  | ascent => exact r.foldl_syntaxError _
  | descent =>
    obtain ⟨ns, c, hc, hread⟩ := Reading.exists_descent source
    change descending _ _ = r.after (Reading.descent source).diagnostics
    rw [descending, hc, hread, after_append, ← scanning_eq, ← foldl_syntaxError, List.foldl_map, Array.foldl_toList]

end Reporter

namespace Session

variable (session : Session) (source : String) (r : Reporter)

/-- The text did not read, and the reporter has all that is wrong with it. -/
structure Refused : Prop where
  status : (session.run source).1.status? = some ⟨true, false⟩
  exitCode : (session.run source).1.status?.map Status.exitCode = some 65
  mistaken : (session.frontEnd.read source).diagnostics ≠ []
  ordered : session.frontEnd = .descent → ∃ ns c,
    Descent.program Descent.depthLimit (scan source).tokens = .ok ns c ∧
      (session.frontEnd.read source).diagnostics = (scan source).diagnostics ++ c.complaints.toList.map Complaint.diagnostic
  reported : session.reported source r = { r with
    diagnostics := r.diagnostics ++ (session.frontEnd.read source).diagnostics.toArray
    text := r.text ++ (session.run source).1.err }
  err : (session.run source).1.err = String.join ((session.frontEnd.read source).diagnostics.map fun d => d.text ++ "\n")
  out : (session.run source).1.out = ""
  kept : (session.run source).2 = session

/-- The text read, and its run stopped at a fault, which the reporter has. -/
structure Faulted (e : RuntimeError) : Prop where
  status : (session.run source).1.status? = some ⟨false, true⟩
  exitCode : (session.run source).1.status?.map Status.exitCode = some 70
  faultless : (session.frontEnd.read source).diagnostics = []
  fault : (session.run source).1.runtimeError? = some e
  reported : session.reported source r = { r with
    runtimeErrors := r.runtimeErrors.push e
    text := r.text ++ (session.run source).1.err }
  err : (session.run source).1.err = e.text ++ "\n"

/-- The text read, and its run was finished; the reporter has nothing new. -/
structure Finished : Prop where
  status : (session.run source).1.status? = some ⟨false, false⟩
  exitCode : (session.run source).1.status?.map Status.exitCode = some 0
  faultless : (session.frontEnd.read source).diagnostics = []
  unfaulted : (session.run source).1.runtimeError? = none
  reported : session.reported source r = r
  err : (session.run source).1.err = ""

variable {session source r}

theorem reported_of_none (h : (session.run source).1.runtimeError? = none) :
    session.reported source r = r.after (session.frontEnd.read source).diagnostics := by
  rw [reported, h, Reporter.reading_eq]
  rfl

theorem reported_of_some {e : RuntimeError} (h : (session.run source).1.runtimeError? = some e) :
    session.reported source r = (r.after (session.frontEnd.read source).diagnostics).runtimeError e := by
  rw [reported, h, Reporter.reading_eq]
  rfl

theorem refused_of_ne_nil (h : (session.frontEnd.read source).diagnostics ≠ []) : session.Refused source r := by
  obtain ⟨notes, hrun⟩ := run_of_ne_nil h
  have hordered : session.frontEnd = .descent → ∃ ns c,
      Descent.program Descent.depthLimit (scan source).tokens = .ok ns c ∧ (session.frontEnd.read source).diagnostics =
        (scan source).diagnostics ++ c.complaints.toList.map Complaint.diagnostic := by
    intro hf
    obtain ⟨ns, c, hc, hread⟩ := Reading.exists_descent source
    exact ⟨ns, c, hc, hf ▸ congrArg Reading.diagnostics hread⟩
  have hreported : session.reported source r = r.after (session.frontEnd.read source).diagnostics :=
    reported_of_none (by rw [hrun]; rfl)
  refine ⟨?_, ?_, h, hordered, ?_, ?_, ?_, ?_⟩
  case refine_3 =>
    rw [hreported, hrun]
    rfl
  all_goals rw [hrun]
  all_goals rfl

theorem faulted_of_failed {e : RuntimeError} (h : (session.frontEnd.read source).diagnostics = [])
    (he : (session.run source).1.outcome = .ended (.failed e)) : session.Faulted source r e := by
  have hfault : (session.run source).1.runtimeError? = some e := by rw [Report.runtimeError?, he]
  have herr : (session.run source).1.err = e.text ++ "\n" := by rw [Report.err, he]
  have hstatus : (session.run source).1.status? = some ⟨false, true⟩ := by rw [Report.status?, he]
  refine ⟨hstatus, by rw [hstatus]; rfl, h, hfault, ?_, herr⟩
  rw [reported_of_some hfault, h, Reporter.after_nil, herr]
  rfl

theorem finished_of_ended (h : (session.frontEnd.read source).diagnostics = [])
    (he : (session.run source).1.outcome = .ended .finished) : session.Finished source r := by
  have hfault : (session.run source).1.runtimeError? = none := by rw [Report.runtimeError?, he]
  have hstatus : (session.run source).1.status? = some ⟨false, false⟩ := by rw [Report.status?, he]
  refine ⟨hstatus, by rw [hstatus]; rfl, h, hfault, ?_, by rw [Report.err, he]⟩
  rw [reported_of_none hfault, h, Reporter.after_nil]

theorem ends (hglobals : session.globals.Primitive) (ht : (session.run source).1.outcome ≠ .ended .outOfTurns) :
    session.Refused source r ∨ (∃ e, session.Faulted source r e) ∨ session.Finished source r := by
  by_cases h : (session.frontEnd.read source).diagnostics = []
  · obtain ⟨notes, hrun⟩ := run_of_nil h
    obtain ⟨notes', houtcome, -⟩ := execute_eq session notes (session.frontEnd.read source).statements
    have hmisfit := (Run.interpret_safe session.settings (isStatement_of_read h) (m := ⟨.start session.globals, #[], notes'⟩)
      (.start hglobals)).1
    rw [← hrun] at houtcome
    cases hending : (interpret session.settings (session.frontEnd.read source).statements
        ⟨.start session.globals, #[], notes'⟩).1 with
    | finished => exact .inr (.inr (finished_of_ended h (hending ▸ houtcome)))
    | failed e => exact .inr (.inl ⟨e, faulted_of_failed h (hending ▸ houtcome)⟩)
    | misfit x => exact absurd hending (hmisfit x)
    | outOfTurns => exact absurd (hending ▸ houtcome) ht
  · exact .inl (refused_of_ne_nil h)

theorem status_ne {a b : Status} (h : (session.run source).1.status? = some a) (h' : (session.run source).1.status? = some b)
    (hne : a ≠ b) : False :=
  hne (Option.some.inj (h.symm.trans h'))

theorem exitCode_eq_iff :
    (session.run source).1.status?.map Status.exitCode = some 65 ↔ (session.frontEnd.read source).diagnostics ≠ [] := by
  refine ⟨fun h hread => ?_, fun h => (refused_of_ne_nil (r := .start) h).exitCode⟩
  obtain ⟨notes, hrun⟩ := run_of_nil hread
  obtain ⟨notes', houtcome, -⟩ := execute_eq session notes (session.frontEnd.read source).statements
  rw [← hrun] at houtcome
  rw [Report.status?, houtcome] at h
  split at h <;> simp_all [Status.exitCode]

def kept (sources : List String) (rs : List (Report × Session)) : List String :=
  ((sources.zip rs).filter fun p => p.2.1.status?.map Status.exitCode ≠ some 65).map Prod.fst

theorem runs_kept (session : Session) (sources : List String) :
    session.runs (kept sources (session.runs sources)) =
      (session.runs sources).filter fun r => r.1.status?.map Status.exitCode ≠ some 65 := by
  induction sources generalizing session with
  | nil => rfl
  | cons source sources ih =>
    by_cases h : (session.run source).1.status?.map Status.exitCode = some 65
    · have hkept := (refused_of_ne_nil (r := .start) (exitCode_eq_iff.mp h)).kept
      have ih' := ih session
      rw [runs, List.filter_cons_of_neg (by simpa using h), hkept, ← ih', kept, List.zip_cons_cons,
        List.filter_cons_of_neg (by simpa using h)]
      rfl
    · have ih' := ih (session.run source).2
      rw [runs, List.filter_cons_of_pos (by simpa using h), ← ih', kept, List.zip_cons_cons,
        List.filter_cons_of_pos (by simpa using h)]
      rfl

end Session

/-- Behind any texts a run of a session that is not stopped ends in exactly one of three ways: the text is refused, its
run stops at one fault, or its run is finished. Leaving out the texts that are refused changes no other run. -/
theorem outcomes_coherent (f : FrontEnd) (verbosity : Nat) (before : List String) :
    let session := before.foldl (fun session source => (session.run source).2) (Session.start f verbosity)
    (∀ source r, (session.run source).1.outcome ≠ .ended .outOfTurns →
      (session.Refused source r ∧ (¬ ∃ e, session.Faulted source r e) ∧ ¬ session.Finished source r) ∨
        (¬ session.Refused source r ∧ (∃ e, session.Faulted source r e) ∧ ¬ session.Finished source r) ∨
        (¬ session.Refused source r ∧ (¬ ∃ e, session.Faulted source r e) ∧ session.Finished source r)) ∧
      ∀ sources, session.runs (Session.kept sources (session.runs sources)) =
        (session.runs sources).filter fun run => run.1.status?.map Status.exitCode ≠ some 65 := by
  intro session
  refine ⟨fun source r ht => ?_, Session.runs_kept session⟩
  have hglobals : session.globals.Primitive := Session.runs_primitive before nofun
  rcases Session.ends hglobals ht with h | ⟨e, h⟩ | h
  · refine .inl ⟨h, fun ⟨e, h'⟩ => ?_, fun h' => ?_⟩
    · exact Session.status_ne h.status h'.status (by decide)
    · exact Session.status_ne h.status h'.status (by decide)
  · refine .inr (.inl ⟨fun h' => ?_, ⟨e, h⟩, fun h' => ?_⟩)
    · exact Session.status_ne h.status h'.status (by decide)
    · exact Session.status_ne h.status h'.status (by decide)
  · refine .inr (.inr ⟨fun h' => ?_, fun ⟨e, h'⟩ => ?_, h⟩)
    · exact Session.status_ne h.status h'.status (by decide)
    · exact Session.status_ne h.status h'.status (by decide)

theorem outcomes_coherent_fault :
    let start := Session.start .ascent 0
    let before := ["var a = \"b\";", "print a"]
    let source := "print a; print -a;"
    let session := before.foldl (fun session source => (session.run source).2) start
    (session.run source).1.outcome ≠ .ended .outOfTurns ∧ (∃ e, session.Faulted source .start e) ∧
      start.runs ["var a = \"b\";", source] =
        (start.runs ["var a = \"b\";", "print a", source]).filter fun run => run.1.status?.map Status.exitCode ≠ some 65 := by
  intro start before source session
  have ht : (session.run source).1.outcome ≠ .ended .outOfTurns := by decide +kernel
  have hstatus : (session.run source).1.status? = some ⟨false, true⟩ := by decide +kernel
  have hkept : Session.kept ["var a = \"b\";", "print a", source] (start.runs ["var a = \"b\";", "print a", source]) =
      ["var a = \"b\";", source] := by decide +kernel
  refine ⟨ht, ?_, hkept ▸ (outcomes_coherent .ascent 0 []).2 _⟩
  rcases (outcomes_coherent .ascent 0 before).1 source .start ht with ⟨h, -⟩ | ⟨-, h, -⟩ | ⟨-, -, h⟩
  · exact (Session.status_ne hstatus h.status (by decide)).elim
  · exact h
  · exact (Session.status_ne hstatus h.status (by decide)).elim

end Lox
