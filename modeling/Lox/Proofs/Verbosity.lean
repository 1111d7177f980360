import Lox.Proofs.Tandem
import Lox.Session

namespace Lox

def Note.upTo (v : Nat) (notes : Array Note) : Array Note :=
  notes.filter (·.level ≤ v)

def Settings.atVerbosity (s : Settings) (v : Nat) : Settings :=
  { s with verbosity := v }

def Report.upTo (v : Nat) (r : Report) : Report :=
  { r with notes := Note.upTo v r.notes }

namespace Session

def atVerbosity (session : Session) (v : Nat) : Session :=
  { session with settings := session.settings.atVerbosity v }

def written (session : Session) (sources : List String) : List (Array Note) :=
  (session.runs sources).map (·.1.notes)

end Session

structure Thins (v : Nat) (notes notes' : Array Note) : Prop where
  kept : notes' = Note.upTo v notes
  levels : ∀ note ∈ notes, 1 ≤ note.level ∧ note.level ≤ 4

namespace Thins

variable {v : Nat} {notes notes' more more' : Array Note}

theorem empty (v : Nat) : Thins v #[] #[] :=
  ⟨rfl, nofun⟩

theorem append (h : Thins v notes notes') (hmore : Thins v more more') : Thins v (notes ++ more) (notes' ++ more') := by
  refine ⟨?_, fun note hnote => ?_⟩
  · simp [Note.upTo, h.kept, hmore.kept]
  · rcases Array.mem_append.mp hnote with hnote | hnote
    · exact h.levels note hnote
    · exact hmore.levels note hnote

variable {s : Settings} (hv : v ≤ s.verbosity)

include hv

theorem gated {level : Nat} (hnotes : ∀ note ∈ notes, note.level = level) (hlow : 1 ≤ level) (hhigh : level ≤ 4) :
    Thins v (if level ≤ s.verbosity then notes else #[]) (if level ≤ v then notes else #[]) := by
  by_cases hs : level ≤ s.verbosity
  · rw [if_pos hs]
    refine ⟨?_, fun note hnote => hnotes note hnote ▸ ⟨hlow, hhigh⟩⟩
    by_cases hlevel : level ≤ v
    · rw [if_pos hlevel, Note.upTo, Array.filter_eq_self.mpr fun note hnote => by simp [hnotes note hnote, hlevel]]
    · rw [if_neg hlevel, Note.upTo, eq_comm, Array.filter_eq_empty_iff]
      exact fun note hnote => by simp [hnotes note hnote, hlevel]
  · rw [if_neg hs, if_neg (by omega)]
    exact empty v

theorem note {level : Nat} (hlow : 1 ≤ level) (hhigh : level ≤ 4) (text : String) :
    Thins v (s.note level text) ((s.atVerbosity v).note level text) :=
  gated hv (fun _ hnote => congrArg Note.level (Array.mem_singleton.mp hnote)) hlow hhigh

theorem trace (r : Reading) : Thins v (s.trace r) ((s.atVerbosity v).trace r) := by
  refine gated hv (fun note hnote => ?_) (by decide) (Nat.le_refl 4)
  obtain ⟨e, -, rfl⟩ := Array.mem_map.mp hnote
  rfl

end Thins

def Machine.Thins (v : Nat) (m m' : Machine) : Prop :=
  m.env = m'.env ∧ m.printed = m'.printed ∧ Lox.Thins v m.notes m'.notes

namespace Run

variable {v : Nat} {s : Settings} {m m' : Machine}

theorem coupled_thins (hv : v ≤ s.verbosity) : Coupled s (s.atVerbosity v) fun _ => Machine.Thins v :=
  coupled_of_env (Q := fun printed notes printed' notes' => printed = printed' ∧ Thins v notes notes') rfl
    (fun line h => ⟨congrArg (·.push line) h.1, h.2⟩)
    fun h _ _ text => ⟨h.1, h.2.append (.note hv (by omega) (by omega) text)⟩

theorem interpret_thins (hv : v ≤ s.verbosity) (ns : List Node) (hm : m.Thins v m') :
    (interpret (s.atVerbosity v) ns m').1 = (interpret s ns m).1 ∧
      (interpret s ns m).2.Thins v (interpret (s.atVerbosity v) ns m').2 := by
  have hall : ∀ u ∈ Node.usesAll ns, True := fun _ _ => trivial
  have h := (coupled_thins hv).interpret (f := id) rfl (fun e hm => ?_) hall hm (.inl rfl)
  · rwa [Node.relineAll_id, Ending.reline_id] at h
  · rw [failed_apply, failed_apply]
    exact ⟨hm.1, hm.2.1, hm.2.2.append (.note hv (Nat.le_refl 1) (by decide) _)⟩

end Run

structure Session.Thins (v : Nat) (run run' : Report × Session) : Prop where
  eq : run' = (run.1.upTo v, run.2.atVerbosity v)
  levels : ∀ note ∈ run.1.notes, 1 ≤ note.level ∧ note.level ≤ 4

namespace Session

variable {v w : Nat} (session : Session)

theorem settings_run (source : String) : (session.run source).2.settings = session.settings := by
  unfold run runReading
  dsimp only
  split <;> rfl

theorem execute_thins (hv : v ≤ session.settings.verbosity) {before before' : Array Note}
    (hbefore : Lox.Thins v before before') (ns : List Node) :
    Thins v (session.execute before ns) ((session.atVerbosity v).execute before' ns) := by
  have hstart := hbefore.append (.note hv (Nat.le_refl 1) (by decide)
    ("run: executing " ++ toString ns.length ++ " statement(s)"))
  have hmachines : Machine.Thins v ⟨.start session.globals, #[], before ++ _⟩ ⟨.start session.globals, #[], before' ++ _⟩ :=
    ⟨rfl, rfl, hstart⟩
  obtain ⟨hending, henv, hprinted, hnotes⟩ := Run.interpret_thins hv ns hmachines
  refine ⟨?_, hnotes.levels⟩
  unfold execute Report.upTo
  dsimp only [atVerbosity]
  rw [hending, hprinted, henv, hnotes.kept]

theorem runReading_thins (hv : v ≤ session.settings.verbosity) (source : String) (r : Reading) :
    Thins v (session.runReading source r) ((session.atVerbosity v).runReading source r) := by
  have hnotes := (Thins.note hv (Nat.le_refl 1) (by decide) ("run: " ++ toString source.length ++ " characters")).append
    (.trace hv r)
  unfold runReading
  dsimp only [atVerbosity]
  split
  · exact session.execute_thins hv hnotes _
  · have hrefused := hnotes.append (.note hv (Nat.le_refl 1) (by decide)
      ("run: " ++ toString r.diagnostics.length ++ " syntax error(s), not evaluating"))
    refine ⟨?_, hrefused.levels⟩
    rw [hrefused.kept]
    rfl

theorem run_thins (hv : v ≤ session.settings.verbosity) (source : String) :
    Thins v (session.run source) ((session.atVerbosity v).run source) :=
  session.runReading_thins hv source (session.frontEnd.read source)

theorem runs_atVerbosity (hv : v ≤ session.settings.verbosity) (sources : List String) :
    (session.atVerbosity v).runs sources = (session.runs sources).map fun r => (r.1.upTo v, r.2.atVerbosity v) := by
  induction sources generalizing session with
  | nil => rfl
  | cons source sources ih =>
    have hrun := session.run_thins hv source
    have hrest := ih (session.run source).2 (by rwa [settings_run])
    change (session.atVerbosity v).run source :: ((session.atVerbosity v).run source).2.runs sources = _
    rw [hrun.eq, hrest]
    rfl

theorem levels_runs (sources : List String) :
    ∀ r ∈ session.runs sources, ∀ note ∈ r.1.notes, 1 ≤ note.level ∧ note.level ≤ 4 := by
  induction sources generalizing session with
  | nil =>
    intro r hr
    cases hr
  | cons source sources ih =>
    intro r hr
    rcases List.mem_cons.mp hr with rfl | hr
    · exact (session.run_thins (Nat.zero_le _) source).levels
    · exact ih (session.run source).2 r hr

theorem written_atVerbosity (hvw : v ≤ w) (sources : List String) :
    (session.atVerbosity v).written sources = ((session.atVerbosity w).written sources).map (Note.upTo v) := by
  have hruns := (session.atVerbosity w).runs_atVerbosity hvw sources
  change (session.atVerbosity v).runs sources = _ at hruns
  rw [written, hruns, written, List.map_map, List.map_map]
  rfl

theorem written_zero (sources : List String) : (session.atVerbosity 0).written sources = sources.map fun _ => #[] := by
  induction sources generalizing session with
  | nil => rfl
  | cons source sources ih =>
    have hrun := (session.atVerbosity 0).run_thins (Nat.le_refl 0) source
    have hnotes : ((session.atVerbosity 0).run source).1.notes = #[] := by
      have hkept : ((session.atVerbosity 0).run source).1.notes = Note.upTo 0 ((session.atVerbosity 0).run source).1.notes :=
        congrArg (·.1.notes) hrun.eq
      rw [hkept, Note.upTo, Array.filter_eq_empty_iff]
      intro note hnote
      have hlevel := (hrun.levels note hnote).1
      simp only [decide_eq_true_eq]
      omega
    have hafter : ((session.atVerbosity 0).run source).2 = ((session.atVerbosity 0).run source).2.atVerbosity 0 :=
      congrArg (·.2) hrun.eq
    change ((session.atVerbosity 0).run source).1.notes :: ((session.atVerbosity 0).run source).2.written sources = _
    rw [hnotes, hafter, ih, List.map_cons]

theorem written_upTo (hv : 4 ≤ v) (sources : List String) :
    (session.written sources).map (Note.upTo v) = session.written sources := by
  rw [written, List.map_map]
  refine List.map_congr_left fun r hr => ?_
  refine Array.filter_eq_self.mpr fun note hnote => ?_
  have hlevel := (session.levels_runs sources r hr note hnote).2
  simp only [decide_eq_true_eq]
  omega

end Session

/-- What is noted decides nothing: at any two verbosities, texts that are run one after another come to the same. The
notes at a verbosity are those at the fourth that need no more, in each of the runs. So more than the fourth adds
nothing, and at none nothing is noted. -/
theorem verbosity_transparent (session : Session) (sources : List String) :
    (∀ v w, ((session.atVerbosity v).runs sources).map (fun r =>
        (r.1.out, r.1.err, r.1.status?, r.1.runtimeError?, r.2.globals)) =
      ((session.atVerbosity w).runs sources).map fun r =>
        (r.1.out, r.1.err, r.1.status?, r.1.runtimeError?, r.2.globals)) ∧
      (∀ v, (session.atVerbosity v).written sources =
        ((session.atVerbosity 4).written sources).map fun notes => notes.filter (·.level ≤ v)) ∧
      (∀ more, (session.atVerbosity (4 + more)).written sources = (session.atVerbosity 4).written sources) ∧
      (session.atVerbosity 0).written sources = sources.map fun _ => #[] := by
  have hshown : ∀ {v w}, v ≤ w → ((session.atVerbosity v).runs sources).map (fun r =>
        (r.1.out, r.1.err, r.1.status?, r.1.runtimeError?, r.2.globals)) =
      ((session.atVerbosity w).runs sources).map fun r =>
        (r.1.out, r.1.err, r.1.status?, r.1.runtimeError?, r.2.globals) := by
    intro v w hvw
    have hruns := (session.atVerbosity w).runs_atVerbosity hvw sources
    change (session.atVerbosity v).runs sources = _ at hruns
    rw [hruns, List.map_map]
    rfl
  have habove : ∀ v, 4 ≤ v → (session.atVerbosity v).written sources = (session.atVerbosity 4).written sources := by
    intro v hv
    rw [session.written_atVerbosity hv, Session.written_upTo _ (Nat.le_refl 4)]
  refine ⟨fun v w => ?_, fun v => ?_, fun more => habove _ (Nat.le_add_right 4 more), session.written_zero sources⟩
  · rcases Nat.le_total v w with hvw | hwv
    · exact hshown hvw
    · exact (hshown hwv).symm
  · rcases Nat.le_total v 4 with hv | hv
    · exact session.written_atVerbosity hv sources
    · exact (habove v hv).trans (Session.written_upTo _ hv sources).symm

end Lox
