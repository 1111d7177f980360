import Lox.Proofs.Tandem

namespace Lox

def Machine.Alike (before : Array String) (m m' : Machine) : Prop :=
  m.env = m'.env ∧ m'.printed = before ++ m.printed

def Settings.Alike (s s' : Settings) : Prop :=
  s.turns = s'.turns ∧ s.depth = s'.depth

namespace Run

variable {f : Int → Int} {s s' : Settings} {before : Array String} {m m' : Machine}

theorem coupled_alike (hs : s.turns = s'.turns) (before : Array String) : Coupled s s' fun _ => Machine.Alike before :=
  coupled_of_env (Q := fun printed _ printed' _ => printed' = before ++ printed) hs
    (fun line h => by rw [h, Array.append_push]) fun h _ _ _ => h

theorem interpret_relines (hs : s.Alike s') (ns : List Node) (hm : m.Alike before m')
    (hf : f 0 = 0 ∨ ∀ e, (interpret s ns m).1 = .failed e → e.fault = .nestingTooDeep → e.token.line ≠ 0) :
    (interpret s' (Node.relineAll f ns) m').1 = (interpret s ns m).1.reline f ∧
      (interpret s ns m).2.Alike before (interpret s' (Node.relineAll f ns) m').2 := by
  refine (coupled_alike hs.1 before).interpret hs.2 (fun e hm => ?_) (fun _ _ => trivial) hm hf
  rw [failed_apply, failed_apply]
  exact hm

end Run

namespace Session

variable {f : Int → Int}

theorem run_of_nil {session : Session} {source : String} (h : (session.frontEnd.read source).diagnostics = []) :
    ∃ notes, session.run source = session.execute notes (session.frontEnd.read source).statements := by
  rw [run]
  exact ⟨_, if_pos h⟩

theorem run_of_ne_nil {session : Session} {source : String} (h : (session.frontEnd.read source).diagnostics ≠ []) :
    ∃ notes, session.run source = (⟨.rejected (session.frontEnd.read source).diagnostics, #[], notes⟩, session) := by
  rw [run]
  exact ⟨_, if_neg h⟩

theorem execute_eq (session : Session) (before : Array Note) (ns : List Node) : ∃ notes,
    let r := interpret session.settings ns ⟨.start session.globals, #[], notes⟩
    (session.execute before ns).1.outcome = .ended r.1 ∧ (session.execute before ns).1.printed = r.2.printed ∧
      (session.execute before ns).2.globals = r.2.env.globals :=
  ⟨before ++ session.settings.note 1 ("run: executing " ++ toString ns.length ++ " statement(s)"), rfl, rfl, rfl⟩

theorem execute_relines (session session' : Session) (hs : session.settings.Alike session'.settings)
    (hg : session.globals = session'.globals) (before before' : Array Note) (ns : List Node)
    (hf : f 0 = 0 ∨ ∀ e, (session.execute before ns).1.outcome = .ended (.failed e) →
      e.fault = .nestingTooDeep → e.token.line ≠ 0) :
    let r := session.execute before ns
    let r' := session'.execute before' (Node.relineAll f ns)
    r'.1.outcome = r.1.outcome.reline f ∧ r.1.printed = r'.1.printed ∧ r.2.globals = r'.2.globals := by
  obtain ⟨notes, houtcome, hprinted, hglobals⟩ := execute_eq session before ns
  obtain ⟨notes', houtcome', hprinted', hglobals'⟩ := execute_eq session' before' (Node.relineAll f ns)
  have hstart : Machine.Alike #[] ⟨.start session.globals, #[], notes⟩ ⟨.start session'.globals, #[], notes'⟩ :=
    ⟨congrArg Env.start hg, rfl⟩
  obtain ⟨hending, henv, hprint⟩ := Run.interpret_relines hs ns hstart
    (hf.imp_right fun h e he => h e (houtcome.trans (congrArg Outcome.ended he)))
  dsimp only
  rw [houtcome, houtcome', hprinted, hprinted', hglobals, hglobals', hending, hprint, henv, Array.empty_append]
  exact ⟨rfl, rfl, rfl⟩

theorem execute_notes (f f' : FrontEnd) (s : Settings) (globals : Scope) (before before' : Array Note)
    (ns : List Node) :
    let r := (Session.mk f s globals).execute before ns
    let r' := (Session.mk f' s globals).execute before' ns
    r.1.outcome = r'.1.outcome ∧ r.1.printed = r'.1.printed ∧ r.2.globals = r'.2.globals := by
  obtain ⟨houtcome, hprinted, hglobals⟩ :=
    execute_relines (f := id) ⟨f, s, globals⟩ ⟨f', s, globals⟩ ⟨rfl, rfl⟩ rfl before before' ns (.inl rfl)
  rw [Node.relineAll_id, Outcome.reline_id] at *
  exact ⟨houtcome.symm, hprinted, hglobals⟩

end Session

end Lox
